import Engram.Calls
import Engram.History
/-!
# Slots

What a turn knows of a slot are the records of it in the working list. A record
that is live but not in that list is hidden: the turn neither sees nor changes
it. `Resolved.facts` and `Resolved.hidden` say what a candidate does to both.
-/

namespace Engram

open MemoryManager Backend Text

variable [Host]

/-! ## One live value -/

/-- At `t`, no slot of `u` has two live records. -/
def Backend.OneLive (w : World) (u : String) (t : Time) : Prop :=
  ∀ k k' m m', (w.mem u).get k = some m → (w.mem u).get k' = some m' → m.attr ≠ "" → m.slot = m'.slot →
    m.isActive t → m'.isActive t → k = k'

/-- Every record of `w'` was one of `w`. -/
def Backend.Shrinks (w w' : World) : Prop := ∀ u k m, (w'.mem u).get k = some m → (w.mem u).get k = some m

theorem Backend.OneLive.mono {w w' : World} {u : String} {t : Time} (h : w.OneLive u t)
    (hs : ∀ k m, (w'.mem u).get k = some m → (w.mem u).get k = some m) : w'.OneLive u t :=
  fun k k' m m' hm hm' => h k k' m m' (hs k m hm) (hs k' m' hm')

/-! ## What a turn sees of a slot -/

/-- What tells the records of a slot apart. -/
structure Fact where
  id : String
  value : String
  expiresAt : Option Time

def Memory.fact (m : Memory) : Fact := ⟨m.id, m.value, m.expiresAt⟩

def facts (σ : String × String) (ms : List Memory) : List Fact := (ms.filter (fun m => m.slot = σ)).map Memory.fact

/-- A live record, under the key `k`, that is not in the working list. -/
structure Hidden (u : String) (existing : List Memory) (w : World) (k : String) (m : Memory) : Prop where
  stored : (w.mem u).get k = some m
  live : m.supersededBy = none
  unseen : k ∉ existing.map (·.id)

section Facts
variable {u : String} {existing : List Memory} {w : World} {σ : String × String}

omit [Host] in
theorem mem_facts {ms : List Memory} {f : Fact} : f ∈ facts σ ms ↔ ∃ m ∈ ms, m.slot = σ ∧ m.fact = f := by
  simp [facts, and_assoc]

omit [Host] in
theorem facts_append (ms ns : List Memory) : facts σ (ms ++ ns) = facts σ ms ++ facts σ ns := by
  simp [facts]

/-- A record that is not superseded is in the working list or hidden. -/
theorem Mirror.mem_or_hidden (h : Mirror u existing w) {k : String} {m : Memory}
    (hget : (w.mem u).get k = some m) (hlive : m.supersededBy = none) : m ∈ existing ∨ Hidden u existing w k m := by
  by_cases hmem : k ∈ existing.map (·.id)
  · obtain ⟨n, hn, rfl⟩ := List.mem_map.1 hmem
    have hget' := h.stored n hn
    rw [hget] at hget'
    cases hget'
    exact .inl hn
  · exact .inr ⟨hget, hlive, hmem⟩

theorem Hidden.congr {w' : World} {k : String} {m : Memory} (h : w'.mem u = w.mem u) :
    Hidden u existing w' k m ↔ Hidden u existing w k m :=
  ⟨fun ⟨hs, hl, hu⟩ => ⟨h ▸ hs, hl, hu⟩, fun ⟨hs, hl, hu⟩ => ⟨h.symm ▸ hs, hl, hu⟩⟩

end Facts

/-! ## What a candidate does to it -/

section Step
variable {c : CandidateFact} {u : String} {threadId : Option String} {source : Provenance}
  {existing existing' : List Memory} {w w' : World} {decision : MemoryDecision} {memory : Option Memory}
  {σ : String × String}

omit [Host] in
theorem facts_reinforced {m : Memory} {t : Time} (hnd : (existing.map (·.id)).Nodup) (hm : m ∈ existing) :
    facts σ (replace (reinforced m t) existing) = facts σ existing := by
  have hsame : ∀ n ∈ existing, ∀ x, (if n.id = (reinforced m t).id then reinforced m t else n) = x →
      x.slot = n.slot ∧ x.fact = n.fact := by
    rintro n hn _ rfl
    split
    · next hid =>
      obtain rfl : n = m := List.inj_on_of_nodup_map hnd hn hm hid
      exact ⟨rfl, rfl⟩
    · exact ⟨rfl, rfl⟩
  rw [replace_eq_map hnd]
  unfold facts
  rw [List.filter_map, List.map_map]
  have hfilter : existing.filter ((fun m => decide (m.slot = σ)) ∘
      fun n => if n.id = (reinforced m t).id then reinforced m t else n) = existing.filter (fun m => m.slot = σ) :=
    List.filter_congr (fun n hn => by simp only [Function.comp, (hsame n hn _ rfl).1])
  rw [hfilter]
  exact List.map_congr_left (fun n hn => (hsame n (List.mem_filter.1 hn).1 _ rfl).2)

/-- A candidate leaves what the turn knows of a slot as it is, and then it is
of another slot or restates a value of this one; or it leaves just the record
it wrote there, with a value that was not known. -/
theorem Resolved.facts (h : Resolved c u threadId source existing w (.ok (decision, memory, existing'), w'))
    (hm : Mirror u existing w) (hσ : σ.1 ≠ "") :
    (facts σ (existing' ++ memory.toList) = facts σ existing ∧ (c.slot = σ → memory = none) ∧
        (c.slot = σ → norm c.value ∈ (facts σ existing).map (norm ·.value))) ∨
      ∃ new, memory = some new ∧ c.slot = σ ∧ New c u threadId source w w' new ∧
        norm c.value ∉ (facts σ existing).map (norm ·.value) ∧ facts σ (existing' ++ memory.toList) = [new.fact] := by
  cases h with
  | @reinforced _ m t _ hmem hc hw =>
    rw [Option.toList_none, List.append_nil, facts_reinforced hm.nodup hmem]
    refine .inl ⟨rfl, fun _ => rfl, fun hslot => ?_⟩
    obtain ⟨hms, hval⟩ := hc (by rw [show c.attr = σ.1 from congrArg Prod.fst hslot]; exact hσ)
    exact List.mem_map.2 ⟨m.fact, mem_facts.2 ⟨m, hmem, hms.trans hslot, rfl⟩, hval⟩
  | @added _ new rs _ hnew hrs hc hw =>
    rw [facts_append, Option.toList_some]
    by_cases hslot : c.slot = σ
    · have hriv : rivals c existing = sameSlot c existing :=
        if_neg (by rw [show c.attr = σ.1 from congrArg Prod.fst hslot]; exact hσ)
      refine .inr ⟨new, rfl, hslot, hnew, ?_, ?_⟩
      · intro hknown
        obtain ⟨f, hf, hval⟩ := List.mem_map.1 hknown
        obtain ⟨m, hmem, hms, rfl⟩ := mem_facts.1 hf
        exact hc m (hriv ▸ mem_sameSlot.2 ⟨hmem, hms.trans hslot.symm⟩) hval
      · -- all of the slot is retired, so the new record is all there is
        have hrest : Engram.facts σ (existing.filter (fun m => m.id ∉ (rivals c existing).map (·.id))) = [] := by
          rw [List.eq_nil_iff_forall_not_mem]
          intro f hf
          obtain ⟨m, hmem, hms, -⟩ := mem_facts.1 hf
          obtain ⟨hmem, hid⟩ := List.mem_filter.1 hmem
          refine of_decide_eq_true hid (List.mem_map.2 ⟨m, ?_, rfl⟩)
          rw [hriv]
          exact mem_sameSlot.2 ⟨hmem, hms.trans hslot.symm⟩
        rw [hrest, List.nil_append]
        simp [Engram.facts, hnew.slot, hslot]
    · refine .inl ⟨?_, fun h => absurd h hslot, fun h => absurd h hslot⟩
      have hnil : Engram.facts σ [new] = [] := by simp [Engram.facts, hnew.slot, hslot]
      rw [hnil, List.append_nil]
      unfold Engram.facts
      rw [List.filter_filter]
      refine congrArg (List.map Memory.fact) (List.filter_congr (fun m hmem => ?_))
      by_cases hms : m.slot = σ
      · -- a record of another slot is no rival
        have hid : m.id ∉ (rivals c existing).map (·.id) := by
          intro hid
          obtain ⟨n, hn, hni⟩ := List.mem_map.1 hid
          obtain ⟨hn, hns⟩ := rivals_subset hn
          obtain rfl := hm.eq_of_id hn hmem hni
          exact hslot (hns.symm.trans hms)
        simp [hms, hid]
      · simp [hms]

/-- What is hidden from a turn stays so and stays as it is. -/
theorem Resolved.hidden (h : Resolved c u threadId source existing w (.ok (decision, memory, existing'), w'))
    (hk : w.Keyed) (hm : Mirror u existing w) (k : String) (m : Memory) :
    Hidden u (existing' ++ memory.toList) w' k m ↔ Hidden u existing w k m := by
  cases h with
  | @reinforced _ n t _ hmem _ hw =>
    have hids : (replace (MemoryManager.reinforced n t) existing ++ (none : Option Memory).toList).map (·.id) =
        existing.map (·.id) := by
      rw [Option.toList_none, List.append_nil, map_id_replace hm.nodup]
    have hget : k ∉ existing.map (·.id) → (w'.mem u).get k = (w.mem u).get k := by
      intro hun
      rw [hw.mem, Dict.get_set_of_ne]
      rintro rfl
      exact hun (List.mem_map.2 ⟨n, hmem, rfl⟩)
    constructor
    · rintro ⟨hs, hl, hun⟩
      rw [hids] at hun
      exact ⟨hget hun ▸ hs, hl, hun⟩
    · rintro ⟨hs, hl, hun⟩
      exact ⟨(hget hun).trans hs, hl, by rw [hids]; exact hun⟩
  | @added _ new rs _ hnew hrs _ hw =>
    rw [Option.toList_some]
    rcases added_cases hnew hk hm hrs hw k with ⟨rfl, hnone, -⟩ | ⟨r, hr, rfl, -, t, hget⟩ | ⟨hne, hriv, hsame⟩
    · constructor
      · rintro ⟨-, -, hun⟩
        exact absurd (mem_ids_added.2 (.inr rfl)) hun
      · rintro ⟨hs, -, -⟩
        cases hnone.symm.trans hs
    · constructor
      · rintro ⟨hs, hl, -⟩
        cases hget.symm.trans hs
        cases hl
      · rintro ⟨-, -, hun⟩
        exact absurd (List.mem_map_of_mem (rivals_subset hr).1) hun
    · have hids : k ∈ (existing.filter (fun m => m.id ∉ (rivals c existing).map (·.id)) ++ [new]).map (·.id) ↔
          k ∈ existing.map (·.id) := by
        rw [mem_ids_added]
        simp only [hriv, hne, not_false_eq_true, and_true, or_false]
      constructor
      · rintro ⟨hs, hl, hun⟩
        exact ⟨hsame ▸ hs, hl, fun hmem => hun (hids.2 hmem)⟩
      · rintro ⟨hs, hl, hun⟩
        exact ⟨hsame.trans hs, hl, fun hmem => hun (hids.1 hmem)⟩

end Step

/-! ## A turn -/

/-- The candidates of the turn that a manager resolves at `observe`: none if the
text is blank or the gate blocks it. -/
def told (mm : MemoryManager) (S : Services) (text : String) (source : Provenance) : List CandidateFact :=
  if strip text ≠ "" ∧ (mm.gate.inspect (strip text) source).allowed then
    usable (S.extract (strip text)) (strip text)
  else []

/-- Every live record in a slot that this operation tells something about is
among the records the turn looks at. -/
def SlotsSeen (mm : MemoryManager) (S : Services) (op : Op) (w : World) : Prop :=
  ∀ u text t source, op = .observe u text t source → ∀ c ∈ told mm S text source, c.attr ≠ "" →
    ∀ k m, (w.mem u).get k = some m → m.slot = c.slot → m.isActive (w.clock 0) → m ∈ window S u w

/-- What the loop of a turn keeps: what is hidden, the records of others, and of
each slot either what was known or one record of this turn. -/
structure OneEach (u : String) (w : World) (existing : List Memory) (done : List CandidateFact) (w' : World)
    (existing' : List Memory) : Prop where
  hidden : ∀ k m, Hidden u existing' w' k m ↔ Hidden u existing w k m
  others : ∀ ns, ns ≠ .memories u → w'.store ns = w.store ns
  slots : ∀ σ : String × String, σ.1 ≠ "" → facts σ existing' = facts σ existing ∨
    (∃ c ∈ done, c.slot = σ) ∧ (∃ f, facts σ existing' = [f]) ∧ ∃ n, w.clock n ≤ w'.now

theorem OneEach.step {c : CandidateFact} {u : String} {threadId : Option String} {source : Provenance}
    {existing₀ existing existing' : List Memory} {w₀ w w' : World} {decision : MemoryDecision} {memory : Option Memory}
    {done : List CandidateFact} (hI : OneEach u w₀ existing₀ done w existing)
    (h : Resolved c u threadId source existing w (.ok (decision, memory, existing'), w')) (hw : w.Fed) (hk : w.Keyed)
    (hm : Mirror u existing w) (h₀ : w₀.After w) (ha : w.After w') :
    OneEach u w₀ existing₀ (done ++ [c]) w' (existing' ++ memory.toList) where
  hidden k m := (h.hidden hk hm k m).trans (hI.hidden k m)
  others ns hns := (h.store_of_ne hns).trans (hI.others ns hns)
  slots σ hσ := by
    rcases h.facts hm hσ with ⟨hsame, -, -⟩ | ⟨new, -, hslot, hnew, -, hone⟩
    · rw [hsame]
      rcases hI.slots σ hσ with hsame | ⟨⟨c', hc', hslot⟩, hone, n, hn⟩
      · exact .inl hsame
      · exact .inr ⟨⟨c', List.mem_append_left _ hc', hslot⟩, hone, n, hn.trans (ha.now_le hw)⟩
    · obtain ⟨n, hn⟩ := h₀.clock 0
      exact .inr ⟨⟨c, by simp, hslot⟩, ⟨_, hone⟩, n, hn ▸ hnew.now_ge⟩

section OneEach
variable {S : Services} {u : String} {w w₁ w₂ : World} {existing existing' : List Memory} {done : List CandidateFact}
  {σ : String × String} {t : Time} {k : String} {n : Memory}

/-- Where nothing was written, what is live was so before the turn. -/
theorem OneEach.live_before (hs : Snapshot S u w existing w₁) (hI : OneEach u w₁ existing done w₂ existing')
    (hm : Mirror u existing' w₂) (hk₂ : w₂.Keyed) (hsame : facts σ existing' = facts σ existing)
    (hget : (w₂.mem u).get k = some n) (hns : n.slot = σ) (ha : n.isActive t) :
    ∃ n', (w.mem u).get k = some n' ∧ n'.slot = σ ∧ n'.isActive t := by
  rcases hm.mem_or_hidden hget (Memory.isActive_iff.1 ha).1 with hmem | hhid
  · have hfact : n.fact ∈ facts σ existing' := mem_facts.2 ⟨n, hmem, hns, rfl⟩
    rw [hsame] at hfact
    obtain ⟨n', hn', hns', hfact⟩ := mem_facts.1 hfact
    have hid : n'.id = k := (congrArg Fact.id hfact).trans (hk₂.id_eq hget)
    refine ⟨n', by rw [← hs.same.mem, ← hid]; exact hs.mirror.stored n' hn', hns', ?_⟩
    have hexp : n'.expiresAt = n.expiresAt := congrArg Fact.expiresAt hfact
    rw [Memory.isActive_iff] at ha ⊢
    exact ⟨hs.mirror.live n' hn', fun e he => ha.2 e (hexp ▸ he)⟩
  · exact ⟨n, by rw [← hs.same.mem]; exact ((hI.hidden k n).1 hhid).stored, hns, ha⟩

/-- Where all that was live was seen, nothing live is hidden. -/
theorem OneEach.mem_of_live (hs : Snapshot S u w existing w₁) (hI : OneEach u w₁ existing done w₂ existing')
    (hm : Mirror u existing' w₂) (hk : w.Keyed) (h₁ : w₁.now ≤ t) (hstart : w.clock 0 ≤ t)
    (hseen : ∀ k m, (w.mem u).get k = some m → m.slot = σ → m.isActive (w.clock 0) → m ∈ window S u w)
    (hget : (w₂.mem u).get k = some n) (hns : n.slot = σ) (ha : n.isActive t) : n ∈ existing' := by
  rcases hm.mem_or_hidden hget (Memory.isActive_iff.1 ha).1 with hmem | hhid
  · exact hmem
  · have hhid := (hI.hidden k n).1 hhid
    have hget₀ : (w.mem u).get k = some n := hs.same.mem ▸ hhid.stored
    have hwin := hseen k n hget₀ hns (Memory.isActive_of_le hstart ha)
    have hmem := hs.kept n hwin (Memory.isActive_of_le h₁ ha)
    exact absurd (List.mem_map.2 ⟨n, hmem, hk.id_eq hget₀⟩) hhid.unseen

/-- A turn that sees the live records of its slots leaves one live record in each. -/
theorem OneEach.oneLive (hs : Snapshot S u w existing w₁) (hw : w.Fed) (hk : w.Keyed) (h₁ : w.After w₁)
    (hI : OneEach u w₁ existing done w₂ existing') (hm : Mirror u existing' w₂) (hk₂ : w₂.Keyed) (h₂ : w₁.now ≤ w₂.now)
    (hseen : ∀ c ∈ done, c.attr ≠ "" → ∀ k m, (w.mem u).get k = some m → m.slot = c.slot → m.isActive (w.clock 0) →
      m ∈ window S u w)
    (ht : w₂.now ≤ t) (hone : w.OneLive u t) : w₂.OneLive u t := by
  intro k k' m m' hget hget' hattr hslot ha ha'
  rcases hI.slots m.slot hattr with hsame | ⟨⟨c, hc, hcs⟩, ⟨f, hf⟩, j, hj⟩
  · obtain ⟨n, hn, hns, hna⟩ := hI.live_before hs hm hk₂ hsame hget rfl ha
    obtain ⟨n', hn', hns', hna'⟩ := hI.live_before hs hm hk₂ hsame hget' hslot.symm ha'
    have hattr₀ : n.attr ≠ "" := by
      rw [show n.attr = m.attr from congrArg Prod.fst hns]
      exact hattr
    exact hone k k' n n' hn hn' hattr₀ (hns.trans hns'.symm) hna hna'
  · -- One record of this turn is all the turn knows of the slot.
    have hattr' : c.attr ≠ "" := by
      rw [show c.attr = m.attr from congrArg Prod.fst hcs]
      exact hattr
    have hstart : w.clock 0 ≤ t := by
      obtain ⟨i, hi⟩ := h₁.clock j
      exact (hw.clock_mono (Nat.zero_le i)).trans (hi ▸ hj.trans ht)
    have hseen : ∀ k n, (w.mem u).get k = some n → n.slot = m.slot → n.isActive (w.clock 0) → n ∈ window S u w :=
      fun k n hn hns => hseen c hc hattr' k n hn (hns.trans hcs.symm)
    have hmem := hI.mem_of_live hs hm hk (h₂.trans ht) hstart hseen hget rfl ha
    have hmem' := hI.mem_of_live hs hm hk (h₂.trans ht) hstart hseen hget' hslot.symm ha'
    have h1 : m.fact ∈ facts m.slot existing' := mem_facts.2 ⟨m, hmem, rfl, rfl⟩
    have h2 : m'.fact ∈ facts m.slot existing' := mem_facts.2 ⟨m', hmem', hslot.symm, rfl⟩
    rw [hf, List.mem_singleton] at h1 h2
    rw [← hk₂.id_eq hget, ← hk₂.id_eq hget']
    exact congrArg Fact.id (h1.trans h2.symm)

end OneEach

/-- Turns keep it that no slot has two live records, if they see those of their slots. -/
theorem apply_oneLive (S : Services) (mm : MemoryManager) (u text : String) (threadId : Option String)
    (source : Provenance) {w : World} (hw : w.Fed) (hk : w.Keyed)
    (hseen : SlotsSeen mm S (.observe u text threadId source) w) (hone : ∀ v t, w.now ≤ t → w.OneLive v t)
    (v : String) (t : Time) (ht : (exec S (mm.apply u text threadId source) w).2.now ≤ t) :
    (exec S (mm.apply u text threadId source) w).2.OneLive v t := by
  have hnow : w.now ≤ t := ((after_exec S _).now_le hw).trans ht
  have hcases := apply_cases S mm u text threadId source hw hk
  generalize exec S (mm.apply u text threadId source) w = r at hcases ht
  cases hcases with
  | blank => exact hone v t hnow
  | idle => exact hone v t hnow
  | blocked =>
    refine (hone v t hnow).mono (fun k m hget => ?_)
    rwa [mem_put_quarantine] at hget
  | @resolved hstrip hg hc first w₁ hs hw₁ ha =>
    have htold : told mm S text source = usable (S.extract (strip text)) (strip text) := if_pos ⟨hstrip, hg⟩
    obtain ⟨done, w₂, existing₂, report, ⟨hI, hafter, hdone⟩, hw₂, hk₂, hm₂, -, hend⟩ :=
      resolveAll_inv S mm u threadId source
        (fun done w existing _ => OneEach u w₁ first done w existing ∧ w₁.After w ∧
          ∀ c ∈ done, c ∈ usable (S.extract (strip text)) (strip text))
        (by
          intro done c rest w w' existing report decision memory existing' hall hw hk hm ha ⟨hI, hafter, hdone⟩ hres
          refine ⟨hI.step hres hw hk hm hafter ha, hafter.trans ha, fun c' hc' => ?_⟩
          rw [hall]
          rcases List.mem_append.1 hc' with hc' | hc'
          · exact List.mem_append_left _ hc'
          · exact List.mem_append_right _ (List.mem_singleton.1 hc' ▸ List.mem_cons_self))
        (show usable (S.extract (strip text)) (strip text) =
          [] ++ usable (S.extract (strip text)) (strip text) from rfl)
        hw₁ (hk.congr (fun _ => hs.same.mem) ha.issued) hs.mirror
        ⟨⟨fun _ _ => .rfl, fun _ _ => rfl, fun _ _ => .inl rfl⟩, .refl w₁, by simp⟩
    -- Wherever the loop stopped, finished or by an overflow.
    have hlast : ∀ w₃, SameData w₂ w₃ → w₂.After w₃ → w₃.now ≤ t → w₃.OneLive v t := by
      intro w₃ hsame ha₃ ht
      have ht₂ : w₂.now ≤ t := (ha₃.now_le hw₂).trans ht
      refine Backend.OneLive.mono (w := w₂) ?_ (fun k m hget => hsame.mem ▸ hget)
      by_cases hv : v = u
      · subst hv
        refine hI.oneLive hs hw hk ha hm₂ hk₂ (hafter.now_le hw₁) (fun c hc => ?_) ht₂ (hone v t hnow)
        exact hseen v text threadId source rfl c (htold ▸ hdone c hc)
      · have hother : w₂.mem v = w.mem v := (hI.others _ (by simp [hv])).trans hs.same.mem
        exact (hone v t hnow).mono (fun k m hget => hother ▸ hget)
    rcases hend with ⟨-, hrun⟩ | ⟨c, -, d, n, w₃, -, -, hs₃, ha₃, hrun⟩
    · rw [hrun] at ht ⊢
      exact hlast w₂ (.refl w₂) (.refl w₂) ht
    · rw [hrun] at ht ⊢
      exact hlast w₃ hs₃ ha₃ ht

/-! ## Runs -/

/-- Forgetting adds no record. -/
theorem forget_shrinks (S : Services) {α : Type} {Q : α → Prop} {u : String} {p : Act α}
    (hp : p.Only (fun _ _ => True) (ForgetCall u) Q) (w : World) : w.Shrinks (exec S p w).2 := by
  refine (hp.run_inv (I := w.Shrinks) (fun i v hi hv => ⟨trivial, ?_⟩) (fun _ _ _ h => h)).1
  cases i with
  | delete ns key => exact fun u' k m hget => hv u' k m (get_delete hget)
  | deleteThread c => exact hv
  | get ns key => exact hv
  | search ns q limit offset => exact hv
  | _ => cases hi

theorem perform_oneLive (S : Services) (reader : MemoryReader) (mm : MemoryManager) (memory : Bool) (op : Op)
    (hop : op.isChat = false) {w : World} (hw : w.Fed) (hk : w.Keyed) (hseen : SlotsSeen mm S op w)
    (hone : ∀ v t, w.now ≤ t → w.OneLive v t) (v : String) (t : Time)
    (ht : (Agent.perform ⟨reader, .manager mm, memory⟩ S op w).2.now ≤ t) :
    (Agent.perform ⟨reader, .manager mm, memory⟩ S op w).2.OneLive v t := by
  have hnow : w.now ≤ t := ((after_exec S _).now_le hw).trans ht
  have hforget : ∀ {α : Type} {Q : α → Prop} {u : String} {p : Act α} (f : α → Outcome),
      p.Only (fun _ _ => True) (ForgetCall u) Q → (exec S (f <$> p) w).2.OneLive v t := by
    intro α Q u p f hp
    rw [exec_map]
    exact (hone v t hnow).mono (fun k m => forget_shrinks S hp w v k m)
  cases op with
  | chat => cases hop
  | observe u text threadId source =>
    simp only [perform_observe] at ht ⊢
    exact apply_oneLive S mm u text threadId source hw hk hseen hone v t ht
  | forgetMemory u id => exact hforget _ (only_forgetMemory id)
  | forgetThread u thread => exact hforget _ (only_forgetThread _ thread)
  | forgetUser u => exact hforget _ (only_forgetUser _)
  | wait => exact hone v t hnow

/-- In every run whose turns see the live records of the slots they write to, no
slot ever has two. -/
theorem run_oneLive (reader : MemoryReader) (mm : MemoryManager) (memory : Bool) {w : World}
    (h : Run ⟨reader, .manager mm, memory⟩ (fun S op w => op.isChat = false ∧ SlotsSeen mm S op w) Backend.empty w)
    (u : String) (t : Time) (ht : w.now ≤ t) : w.OneLive u t := by
  have hinv := h.inv (fun w => w.Keyed ∧ ∀ u t, w.now ≤ t → w.OneLive u t)
    ⟨keyed_empty, fun _ _ _ _ _ _ _ hm => by cases hm⟩ (fun S op i w hI hi hp =>
      ⟨(hI.1.given i).perform _ S op,
        perform_oneLive S reader mm memory op hp.1 (fed_given hi) (hI.1.given i) hp.2 hI.2⟩)
  exact hinv.2 u t ht

/-! ## New slots -/

section Fresh
variable (S : Services) (mm : MemoryManager) (u text : String) (threadId : Option String) (source : Provenance)

/-- The candidates in `done` have added the records `news`, one each, and retired none. -/
structure Adding (u : String) (w : World) (existing : List Memory) (done : List CandidateFact) (w' : World)
    (existing' news : List Memory) : Prop where
  entries : (w'.mem u).entries = (w.mem u).entries ++ news.map (fun m => (m.id, m))
  slots : news.map Memory.slot = done.map CandidateFact.slot
  live : ∀ m ∈ news, m.supersededBy = none ∧ m.expiresAt = none
  known : ∀ m ∈ existing', m ∈ existing ∨ m ∈ news

/-- One more for a new slot adds one more. -/
theorem Adding.step {c : CandidateFact} {existing₀ existing existing' news : List Memory} {w₀ w w' : World}
    {done : List CandidateFact} {decision : MemoryDecision} {memory : Option Memory}
    (h : Adding u w₀ existing₀ done w existing news)
    (hres : Resolved c u threadId source existing w (.ok (decision, memory, existing'), w')) (hk : w.Keyed)
    (hattr : c.attr ≠ "") (httl : c.ttlDays = none) (hnew : ∀ m ∈ existing₀, m.slot ≠ c.slot)
    (hdone : c.slot ∉ done.map CandidateFact.slot) :
    ∃ news', Adding u w₀ existing₀ (done ++ [c]) w' (existing' ++ memory.toList) news' := by
  have hunknown : ∀ m ∈ existing, m.slot ≠ c.slot := by
    intro m hm hms
    rcases h.known m hm with hm | hm
    · exact hnew m hm hms
    · exact hdone (h.slots ▸ List.mem_map.2 ⟨m, hm, hms⟩)
  cases hres with
  | reinforced _ hm hc _ => exact absurd (hc hattr).1 (hunknown _ hm)
  | @added _ new rs _ hadded hrs _ hw =>
    have hriv : rivals c existing = [] := by
      rw [List.eq_nil_iff_forall_not_mem]
      intro m hm
      exact hunknown m (rivals_subset hm).1 (rivals_subset hm).2
    rw [hriv] at hrs
    obtain rfl := List.map_eq_nil_iff.1 hrs
    refine ⟨news ++ [new], ?_, ?_, fun m hm => ?_, fun m hm => ?_⟩
    · have hkey : new.id ∉ (w.mem u).keys := Dict.get_eq_none_iff.1 (hadded.get_none hk)
      rw [hw.mem]
      show ((w.mem u).set new.id new).entries = _
      rw [Dict.entries_set_new _ hkey, h.entries]
      simp
    · simp [h.slots, hadded.slot]
    · rcases List.mem_append.1 hm with hm | hm
      · exact h.live m hm
      · obtain rfl := List.mem_singleton.1 hm
        obtain ⟨n, hn⟩ := hadded.expiresAt
        exact ⟨hadded.supersededBy, by simpa [httl] using hn⟩
    · rcases List.mem_append.1 hm with hm | hm
      · exact (h.known m (List.mem_filter.1 hm).1).imp_right (List.mem_append_left _)
      · exact .inr (List.mem_append_right _ hm)

/-- Candidates for new slots, one each and without expiry, are all added. -/
theorem resolveAll_fresh {cs : List CandidateFact} {existing : List Memory} {w : World} (hw : w.Fed) (hk : w.Keyed)
    (hm : Mirror u existing w) (hnd : (cs.map CandidateFact.slot).Nodup)
    (hfresh : ∀ c ∈ cs, c.attr ≠ "" ∧ c.ttlDays = none ∧ ∀ m ∈ existing, m.slot ≠ c.slot) :
    ∃ news : List Memory, ((exec S (resolveAll mm u threadId source cs existing .empty) w).2.mem u).entries =
        (w.mem u).entries ++ news.map (fun m => (m.id, m)) ∧ news.map Memory.slot = cs.map CandidateFact.slot ∧
      ∀ m ∈ news, m.supersededBy = none ∧ m.expiresAt = none := by
  have hstep : ∀ done c rest w₁ w₂ existing₁ (report : WriteReport) decision memory existing₂, cs = done ++ c :: rest →
      Backend.Fed w₁ → Backend.Keyed w₁ → Mirror u existing₁ w₁ → Backend.After w₁ w₂ →
      (∃ news, Adding u w existing done w₁ existing₁ news) →
      Resolved c u threadId source existing₁ w₁ (.ok (decision, memory, existing₂), w₂) →
      ∃ news, Adding u w existing (done ++ [c]) w₂ (existing₂ ++ memory.toList) news := by
    rintro done c rest w₁ w₂ existing₁ report decision memory existing₂ hall - hk₁ - - ⟨news, hI⟩ hres
    obtain ⟨hattr, httl, hnew⟩ := hfresh c (by rw [hall]; simp)
    refine hI.step u threadId source hres hk₁ hattr httl hnew (fun hdone => ?_)
    rw [hall, List.map_append, List.map_cons] at hnd
    exact (List.nodup_append.1 hnd).2.2 _ hdone _ List.mem_cons_self rfl
  obtain ⟨done, w', existing', report, ⟨news, hI⟩, -, -, -, -, hend⟩ := resolveAll_inv S mm u threadId source
    (fun done w' existing' _ => ∃ news, Adding u w existing done w' existing' news) hstep
    (show cs = [] ++ cs from rfl) hw hk hm ⟨[], by simp, rfl, by simp, fun m hm => .inl hm⟩
  rcases hend with ⟨rfl, hrun⟩ | ⟨c, hc, d, n, w₃, hd, -, -, -, -⟩
  · rw [hrun]
    exact ⟨news, hI.entries, hI.slots, hI.live⟩
  · rw [(hfresh c hc).2.1] at hd
    cases hd

/-- ... whatever the user has in these slots beyond the records the turn looks at. -/
theorem apply_fresh {w : World} (hw : w.Fed) (hk : w.Keyed)
    (hnd : ((told mm S text source).map CandidateFact.slot).Nodup)
    (hfresh : ∀ c ∈ told mm S text source, c.attr ≠ "" ∧ c.ttlDays = none ∧ ∀ m ∈ window S u w, m.slot ≠ c.slot) :
    ∃ news : List Memory, ((exec S (mm.apply u text threadId source) w).2.mem u).entries =
        (w.mem u).entries ++ news.map (fun m => (m.id, m)) ∧
      news.map Memory.slot = (told mm S text source).map CandidateFact.slot ∧
      ∀ m ∈ news, m.supersededBy = none ∧ m.expiresAt = none := by
  have hcases := apply_cases S mm u text threadId source hw hk
  generalize exec S (mm.apply u text threadId source) w = r at hcases
  cases hcases with
  | blank h =>
    rw [show told mm S text source = [] from if_neg (by simp [h])]
    exact ⟨[], (List.append_nil _).symm, rfl, by simp⟩
  | blocked h hg =>
    rw [show told mm S text source = [] from if_neg (by simp [hg]), mem_put_quarantine]
    exact ⟨[], (List.append_nil _).symm, rfl, by simp⟩
  | idle h hg hc =>
    rw [show told mm S text source = [] from (if_pos ⟨h, hg⟩).trans hc]
    exact ⟨[], (List.append_nil _).symm, rfl, by simp⟩
  | @resolved hstrip hg hc existing w₁ hs hw₁ ha =>
    have htold : told mm S text source = usable (S.extract (strip text)) (strip text) := if_pos ⟨hstrip, hg⟩
    rw [htold] at hnd hfresh ⊢
    rw [← hs.same.mem]
    refine resolveAll_fresh S mm u threadId source hw₁ (hk.congr (fun _ => hs.same.mem) ha.issued) hs.mirror hnd ?_
    intro c hc
    obtain ⟨hattr, httl, hnew⟩ := hfresh c hc
    exact ⟨hattr, httl, fun m hm => hnew m (hs.seen.subset hm)⟩

theorem perform_fresh (reader : MemoryReader) (memory : Bool) {w : World} (hw : w.Fed) (hk : w.Keyed)
    (hnd : ((told mm S text source).map CandidateFact.slot).Nodup)
    (hfresh : ∀ c ∈ told mm S text source, c.attr ≠ "" ∧ c.ttlDays = none ∧ ∀ m ∈ window S u w, m.slot ≠ c.slot) :
    ∃ news : List Memory,
      ((Agent.perform ⟨reader, .manager mm, memory⟩ S (.observe u text threadId source) w).2.mem u).entries =
        (w.mem u).entries ++ news.map (fun m => (m.id, m)) ∧
      news.map Memory.slot = (told mm S text source).map CandidateFact.slot ∧
      ∀ m ∈ news, m.supersededBy = none ∧ m.expiresAt = none := by
  simp only [perform_observe]
  exact apply_fresh S mm u text threadId source hw hk hnd hfresh

end Fresh

end Engram

/-! ## A crowded store -/

namespace Engram

open Backend Text MemoryManager

attribute [local instance] ascii

/-- A user who changed teams has one. -/
theorem run_oneLive_moved : moved.OneLive "alice" moved.now := by
  have hvalid : (Input.at 1 'a').Valid Backend.empty := Stamped.empty.valid (by decide) (by decide)
  have hjoined : joined.Stamped 1 ['a'] := Stamped.empty.perform (by decide) 'a' _ teamBackend _
  have hvalid' : (Input.at 2 'b').Valid joined := hjoined.valid (by decide) (by decide)
  have hseen : SlotsSeen lenient teamBackend (.observe "alice" "payments" none .user)
      (Backend.empty.given (.at 1 'a')) := by
    rintro u text t source - c - - k m hget
    cases hget
  have hseen' : SlotsSeen lenient teamBackend (.observe "alice" "platform" none .user) (joined.given (.at 2 'b')) := by
    rintro u text t source hop c - - k m hget - -
    cases hop
    exact mem_window_of_small (by decide +kernel) hget
  exact run_oneLive ⟨5⟩ lenient true
    (.step (.step .nil teamBackend (.observe "alice" "payments" none .user) _ hvalid ⟨rfl, hseen⟩) teamBackend
      (.observe "alice" "platform" none .user) _ hvalid' ⟨rfl, hseen'⟩) "alice" _ (le_refl _)

/-- Five hundred facts, each in a slot of its own. -/
def profile : List CandidateFact :=
  (List.range 500).map (fun n => .stating (String.ofList (List.replicate (n + 1) 'x')) "yes" none)

/-- An extractor that takes "profile" for all of these, other texts for the user's team. -/
def profileBackend : Services :=
  .inMemory (fun text => if text = "profile" then profile else [.stating "team" text none]) (fun _ _ => 1)
    (fun _ => some "ok")

theorem profile_attr {c : CandidateFact} (h : c ∈ profile) :
    c.attr ≠ "" ∧ c.attr ≠ "team" ∧ c.ttlDays = none ∧ c.value = "yes" := by
  obtain ⟨n, -, rfl⟩ := List.mem_map.1 h
  refine ⟨fun he => ?_, fun he => ?_, rfl, rfl⟩
  · have hhead := congrArg (fun s => s.toList.head?) he
    simp [CandidateFact.stating, List.replicate_succ] at hhead
  · have hhead := congrArg (fun s => s.toList.head?) he
    simp [CandidateFact.stating, List.replicate_succ] at hhead

theorem profile_slots : (profile.map CandidateFact.slot).Nodup := by
  unfold profile
  rw [List.map_map]
  refine List.Nodup.map (fun a b hab => ?_) List.nodup_range
  have hlen := congrArg (fun s : String × String => s.1.toList.length) hab
  simpa [CandidateFact.slot, CandidateFact.stating] using hlen

theorem told_profile : told lenient profileBackend "profile" .user = profile := by
  have hstrip : strip "profile" = "profile" := by decide +kernel
  have hyes : norm "yes" ∉ nonValues := by decide +kernel
  unfold told
  rw [hstrip, if_pos ⟨by decide, InjectionGate.inspect_lax _ rfl⟩]
  have hsame : (profile.map (verifyTtl · "profile")) = profile := by
    refine (List.map_congr_left (fun c hc => ?_)).trans (List.map_id _)
    exact if_pos (.inl (profile_attr hc).2.2.1)
  have hextract : profileBackend.extract "profile" = profile := by
    simp only [profileBackend, Components.inMemory, if_true]
  rw [hextract, usable, hsame, List.filter_eq_self]
  intro c hc
  obtain ⟨hattr, -, -, hvalue⟩ := profile_attr hc
  simp [isUsable, hattr, hvalue, hyes]

theorem told_team {text : String} (h : text = "payments" ∨ text = "platform") :
    told lenient profileBackend text .user = [.stating "team" text none] := by
  rcases h with rfl | rfl <;> decide +kernel

/-- The store has all these slots, and then the records in `rest`. -/
def Crowded (w : World) (rest : List Memory) : Prop :=
  ∃ news : List Memory, (w.mem "alice").values = news ++ rest ∧
    news.map Memory.slot = profile.map CandidateFact.slot

/-- Five hundred records are all a turn looks at. -/
theorem Crowded.window_slot {w : World} {rest : List Memory} (h : Crowded w rest) {m : Memory}
    (hm : m ∈ window profileBackend "alice" w) : m.slot ≠ ("team", "") := by
  obtain ⟨news, hvalues, hslots⟩ := h
  have hlen : news.length = 500 := by
    have hlen := congrArg List.length hslots
    rwa [List.length_map, List.length_map, profile, List.length_map, List.length_range] at hlen
  have hwin : window profileBackend "alice" w = news := by
    show (w.mem "alice").values.take 500 = news
    rw [hvalues, ← hlen, List.take_left]
  intro hteam
  have hmem : ("team", "") ∈ profile.map CandidateFact.slot := by
    rw [← hslots]
    exact List.mem_map.2 ⟨m, hwin ▸ hm, hteam⟩
  obtain ⟨c, hc, hslot⟩ := List.mem_map.1 hmem
  exact (profile_attr hc).2.1 (congrArg Prod.fst hslot)

/-- So a turn about the team adds a record, whatever `rest` has of it. -/
theorem Crowded.team {w : World} {rest : List Memory} (h : Crowded w rest) (hw : w.Fed) (hk : w.Keyed) {text : String}
    (htext : text = "payments" ∨ text = "platform") :
    ∃ m : Memory, Crowded (Agent.perform ⟨⟨5⟩, .manager lenient, true⟩ profileBackend
      (.observe "alice" text none .user) w).2
      (rest ++ [m]) ∧ m.slot = ("team", "") ∧ m.supersededBy = none ∧ m.expiresAt = none := by
  obtain ⟨ms, hms, hslots, hlive⟩ := perform_fresh profileBackend lenient "alice" text none .user ⟨5⟩ true hw hk
    (by rw [told_team htext]; exact List.nodup_singleton _)
    (by
      rw [told_team htext]
      intro c hc
      obtain rfl := List.mem_singleton.1 hc
      exact ⟨by simp [CandidateFact.stating], rfl, fun m hm => h.window_slot hm⟩)
  rw [told_team htext] at hslots
  obtain ⟨news, hvalues, hprofile⟩ := h
  obtain ⟨m, rfl⟩ : ∃ m, ms = [m] := List.length_eq_one_iff.1 (by simpa using congrArg List.length hslots)
  have hslot : m.slot = ("team", "") := (List.cons.inj hslots).1
  refine ⟨m, ⟨news, ?_, hprofile⟩, hslot, hlive m List.mem_cons_self⟩
  rw [Dict.values, hms, List.map_append, ← Dict.values, hvalues, List.append_assoc]
  rfl

theorem crowded_profile {w : World} (hw : w.Fed) (hk : w.Keyed) (hempty : w.mem "alice" = .empty) :
    Crowded (Agent.perform ⟨⟨5⟩, .manager lenient, true⟩ profileBackend
      (.observe "alice" "profile" none .user) w).2 [] := by
  obtain ⟨news, hnews, hslots, -⟩ := perform_fresh profileBackend lenient "alice" "profile" none .user ⟨5⟩ true hw hk
    (by rw [told_profile]; exact profile_slots) (by
      rw [told_profile]
      intro c hc
      refine ⟨(profile_attr hc).1, (profile_attr hc).2.2.1, fun m hm => ?_⟩
      obtain ⟨k, hget⟩ := mem_window hm
      rw [hempty] at hget
      cases hget)
  refine ⟨news, ?_, hslots.trans (by rw [told_profile])⟩
  rw [Dict.values, hnews, hempty, List.map_append, List.map_map]
  exact (List.map_id _).trans (List.append_nil _).symm

/-- With five hundred other slots filled first, a turn sees none of the user's
teams: the third adds one beside that of the second. -/
theorem crowded_two_live : ∃ w, Run ⟨⟨5⟩, .manager lenient, true⟩ (fun _ op _ => op.isChat = false) Backend.empty w ∧
    ¬ w.OneLive "alice" w.now := by
  have hnext : ∀ {t : Time} {tags : List Char} {w : World} (text : String) (t' : Time) (tag : Char),
      Run ⟨⟨5⟩, .manager lenient, true⟩ (fun _ op _ => op.isChat = false) Backend.empty w → w.Keyed → w.Stamped t tags →
      t ≤ t' → tag ∉ tags → ∃ i w', (w.given i).Fed ∧ w' = (Agent.perform ⟨⟨5⟩, .manager lenient, true⟩ profileBackend
        (.observe "alice" text none .user) (w.given i)).2 ∧
        Run ⟨⟨5⟩, .manager lenient, true⟩ (fun _ op _ => op.isChat = false) Backend.empty w' ∧ w'.Keyed ∧
        w'.Stamped t' (tag :: tags) := by
    intro t tags w text t' tag hrun hk hs ht htag
    exact ⟨.at t' tag, _, fed_given (hs.valid ht htag), rfl, .step hrun profileBackend _ _ (hs.valid ht htag) rfl,
      (hk.given _).perform _ _ _, hs.perform ht tag _ _ _⟩
  -- Three turns: the profile, then two teams, each out of the next one's sight.
  obtain ⟨i₁, w₁, hf₁, hw₁, hrun₁, hk₁, hs₁⟩ := hnext "profile" 1 'a' .nil keyed_empty .empty (by decide) (by decide)
  obtain ⟨i₂, w₂, hf₂, hw₂, hrun₂, hk₂, hs₂⟩ := hnext "payments" 2 'b' hrun₁ hk₁ hs₁ (by decide) (by decide)
  obtain ⟨i₃, w₃, hf₃, hw₃, hrun₃, hk₃, -⟩ := hnext "platform" 3 'c' hrun₂ hk₂ hs₂ (by decide) (by decide)
  have hc₁ : Crowded w₁ [] := hw₁ ▸ crowded_profile hf₁ (keyed_empty.given _) rfl
  obtain ⟨a, hc₂, haslot, ha⟩ := Crowded.team (w := w₁.given i₂) hc₁ hf₂ (hk₁.given _) (.inl rfl)
  obtain ⟨b, hc₃, hbslot, hb⟩ := Crowded.team (w := w₂.given i₃) (hw₂ ▸ hc₂) hf₃ (hk₂.given _) (.inr rfl)
  rw [← hw₃] at hc₃
  obtain ⟨news, hvalues, -⟩ := hc₃
  refine ⟨w₃, hrun₃, fun hone => ?_⟩
  have hget : ∀ m, m ∈ (w₃.mem "alice").values → (w₃.mem "alice").get m.id = some m := by
    intro m hm
    obtain ⟨k, hget⟩ := Dict.mem_values_iff.1 hm
    rw [hk₃.id_eq hget]
    exact hget
  have hids : ((w₃.mem "alice").values.map (·.id)).Nodup := by
    have hkeys : (w₃.mem "alice").values.map (·.id) = (w₃.mem "alice").keys := by
      rw [Dict.values, List.map_map]
      exact List.map_congr_left (fun e he => hk₃.id_eq (Dict.get_eq_some_iff.2 he))
    rw [hkeys]
    exact Dict.keys_nodup _
  have hactive : ∀ m : Memory, m.supersededBy = none ∧ m.expiresAt = none → m.isActive w₃.now := by
    intro m hm
    rw [Memory.isActive_iff]
    exact ⟨hm.1, fun e he => by rw [hm.2] at he; cases he⟩
  have hsame := hone a.id b.id a b (hget a (by simp [hvalues])) (hget b (by simp [hvalues]))
    (by rw [show a.attr = "team" from congrArg Prod.fst haslot]; decide) (haslot.trans hbslot.symm)
      (hactive a ha) (hactive b hb)
  rw [hvalues, ← List.append_assoc, List.map_append, List.nodup_append] at hids
  exact hids.2.2 a.id (by simp) b.id (by simp) hsame

end Engram
