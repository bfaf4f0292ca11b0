import Engram.Calls
import Engram.Turn
/-!
# Chains of supersession

A superseded record names the record that replaced it. The names are right after
every single put, so they hold however a turn is cut short.
-/

namespace Engram

open MemoryManager Backend Text

variable [Host]

/-! ## Links -/

/-- Under the key `i` there is `n`, which can replace `r` under the key `k`: a
later record of the same slot with another value. -/
structure Replaces (d : Dict String Memory) (k : String) (r : Memory) (i : String) (n : Memory) : Prop where
  stored : d.get i = some n
  slot : n.slot = r.slot
  slotted : r.attr ≠ ""
  value : norm n.value ≠ norm r.value
  later : d.Before k i
  created : r.createdAt ≤ n.createdAt

/-- Every superseded record names one that can replace it. -/
def Chained (d : Dict String Memory) : Prop :=
  ∀ k r i, d.get k = some r → r.supersededBy = some i → ∃ n, Replaces d k r i n

section Links
variable {d : Dict String Memory} {k k' i : String} {m m' r n : Memory}

/-- `m'` says the same of the same slot, and is as old. -/
structure Twin (m m' : Memory) : Prop where
  slot : m'.slot = m.slot
  value : m'.value = m.value
  created : m'.createdAt = m.createdAt

theorem Replaces.of_twin (h : Replaces d k r i n) (hr : Twin r m) : Replaces d k m i n where
  stored := h.stored
  slot := h.slot.trans hr.slot.symm
  slotted := by
    rw [show m.attr = r.attr from congrArg Prod.fst hr.slot]
    exact h.slotted
  value := by
    rw [hr.value]
    exact h.value
  later := h.later
  created := hr.created.le.trans h.created

/-- Rewriting a record, be it the replaced one, the replacing one or another. -/
theorem Replaces.set (h : Replaces d k r i n) (hm : ∀ m, d.get k' = some m → Twin m m') :
    ∃ n', Replaces (d.set k' m') k r i n' := by
  by_cases hi : i = k'
  · subst hi
    have hn := hm n h.stored
    refine ⟨m', ⟨Dict.get_set_self d i m', hn.slot.trans h.slot, h.slotted, ?_, h.later.set i m', ?_⟩⟩
    · rw [hn.value]
      exact h.value
    · rw [hn.created]
      exact h.created
  · exact ⟨n, ⟨(Dict.get_set_of_ne d m' hi).trans h.stored, h.slot, h.slotted, h.value, h.later.set k' m', h.created⟩⟩

/-- The replacing record itself is not rewritten. -/
theorem Replaces.set_of_ne (h : Replaces d k r i n) (hi : i ≠ k') : Replaces (d.set k' m') k r i n :=
  ⟨(Dict.get_set_of_ne d m' hi).trans h.stored, h.slot, h.slotted, h.value, h.later.set k' m', h.created⟩

/-- A put that changes nothing but, at most, what the record is superseded by. -/
theorem Chained.set (h : Chained d) (hm : ∀ m, d.get k' = some m → Twin m m')
    (hlink : ∀ i, m'.supersededBy = some i → ∃ n, Replaces d k' m' i n) : Chained (d.set k' m') := by
  intro k r i hget hr
  have hold : ∃ n, Replaces d k r i n := by
    rcases Dict.get_set_eq_some hget with ⟨rfl, rfl⟩ | ⟨-, hget⟩
    · exact hlink i hr
    · exact h k r i hget hr
  obtain ⟨n, hn⟩ := hold
  exact hn.set hm

/-- From one record to the one that superseded it. -/
def SupersededBy (d : Dict String Memory) (k i : String) : Prop := ∃ r, d.get k = some r ∧ r.supersededBy = some i

/-- Each link leads to a later record, so there is a last one. -/
theorem Chained.ends (h : Chained d) : ∀ k r, d.get k = some r →
    ∃ j n, Relation.ReflTransGen (SupersededBy d) k j ∧ d.get j = some n ∧ n.slot = r.slot ∧ n.supersededBy = none := by
  intro k
  induction k using d.wellFounded_before.induction with
  | _ k ih =>
    intro r hget
    cases hr : r.supersededBy with
    | none => exact ⟨k, r, .refl, hget, rfl, hr⟩
    | some i =>
      obtain ⟨n, hn⟩ := h k r i hget hr
      obtain ⟨j, last, hpath, hlast, hslot, hlive⟩ := ih i hn.later n hn.stored
      exact ⟨j, last, .head ⟨r, hget, hr⟩ hpath, hlast, hslot.trans hn.slot, hlive⟩

theorem Chained.unslotted (h : Chained d) (hget : d.get k = some r) (hattr : r.attr = "") : r.supersededBy = none := by
  cases hr : r.supersededBy with
  | none => rfl
  | some i =>
    obtain ⟨n, hn⟩ := h k r i hget hr
    exact absurd hattr hn.slotted

end Links

/-! ## Every call -/

/-- What a turn may be cut short in: each record under its id, none from the
future, each chain sound. -/
structure Backend.Traced (w : World) : Prop where
  fed : w.Fed
  keyed : w.Keyed
  dated : ∀ u k m, (w.mem u).get k = some m → m.createdAt ≤ w.now
  chained : ∀ u, Chained (w.mem u)

/-- Calls that leave the memories alone. -/
def Aside : Call → Prop
  | .put (.memories _) _ _ | .delete (.memories _) _ => False
  | _ => True

section Calls
variable (S : Services) {w : World} {u : String}

theorem aside_handle {i : Call} (hi : Aside i) (w : World) (u : String) : (handle S i w).2.mem u = w.mem u := by
  cases i with
  | put ns key value =>
    cases ns with
    | memories => cases hi
    | _ => exact store_put_of_ne w key value (by simp)
  | delete ns key =>
    cases ns with
    | memories => cases hi
    | _ => exact store_delete_of_ne w key (by simp)
  | embed text => exact w.mem_embed S text u
  | _ => rfl

theorem Backend.Traced.aside (hw : w.Traced) {i : Call} (hi : Aside i) : (handle S i w).2.Traced where
  fed := fed_handle S i hw.fed
  keyed := hw.keyed.congr (aside_handle S hi w) (after_handle S i w).issued
  dated u k m hget := (hw.dated u k m (aside_handle S hi w u ▸ hget)).trans ((after_handle S i w).now_le hw.fed)
  chained u := (aside_handle S hi w u).symm ▸ hw.chained u

/-- A put of a memory under its id keeps all but, perhaps, its links. -/
theorem Backend.Traced.put (hw : w.Traced) {k : String} {m : Memory} (hid : m.id = k) (hu : m.userId = u)
    (hissued : k ∈ w.issued) (hdate : m.createdAt ≤ w.now) (hchain : Chained ((w.mem u).set k m)) :
    (w.put (.memories u) k m).Traced := by
  have hcases : ∀ {v k' m'}, ((w.put (.memories u) k m).mem v).get k' = some m' →
      (v = u ∧ k' = k ∧ m' = m) ∨ (w.mem v).get k' = some m' := by
    intro v k' m' hget
    rcases get_put hget with ⟨hv, hk, hm⟩ | hget
    · cases hv
      exact .inl ⟨rfl, hk, eq_of_heq hm⟩
    · exact .inr hget
  refine ⟨⟨hw.fed.clock_mono, hw.fed.now_le, hw.fed.ids_inj, hw.fed.ids_new⟩,
    ⟨fun hget => ?_, fun hget => ?_, fun hget => ?_⟩, fun v k' m' hget => ?_, fun v => ?_⟩
  · rcases hcases hget with ⟨-, rfl, rfl⟩ | hget
    · exact hid
    · exact hw.keyed.id_eq hget
  · rcases hcases hget with ⟨rfl, -, rfl⟩ | hget
    · exact hu
    · exact hw.keyed.user_eq hget
  · rcases hcases hget with ⟨-, rfl, -⟩ | hget
    · exact hissued
    · exact hw.keyed.issued hget
  · rcases hcases hget with ⟨-, -, rfl⟩ | hget
    · exact hdate
    · exact hw.dated v k' m' hget
  · by_cases hv : v = u
    · subst hv
      rw [mem_put_self]
      exact hchain
    · rw [mem_put_of_ne _ _ _ hv]
      exact hw.chained v

/-- A record rewritten with the same id, slot, value and age. -/
theorem Backend.Traced.rewrite (hw : w.Traced) {m m' : Memory} (hget : (w.mem u).get m.id = some m) (hid : m'.id = m.id)
    (hu : m'.userId = m.userId) (htwin : Twin m m')
    (hlink : ∀ i, m'.supersededBy = some i → ∃ n, Replaces (w.mem u) m.id m' i n) :
    (w.put (.memories u) m.id m').Traced := by
  refine hw.put hid (hu.trans (hw.keyed.user_eq hget)) (hw.keyed.issued hget)
    (htwin.created.le.trans (hw.dated u _ m hget)) ?_
  refine (hw.chained u).set (fun n hn => ?_) hlink
  rw [hget] at hn
  cases hn
  exact htwin

end Calls

/-! ## Every part of a turn -/

section Parts
variable {A : (i : Call) → i.Ans → Prop} {S : Services} {c : CandidateFact} {u : String} {threadId : Option String}
  {source : Provenance} {existing : List Memory} {w : World}

theorem aside_build : (build c u threadId source).Only A Aside (fun _ => True) := by
  refine .seq (only_expiry trivial c.ttlDays) (fun _ _ => only_uuid4 trivial (fun id _ => ?_))
  exact only_utcnow trivial (fun _ => only_utcnow trivial (fun _ => .pure trivial))

theorem aside_nearest (mm : MemoryManager) (text : String) : (mm.nearest text existing).Only A Aside (fun _ => True) :=
  (only_nearest (fun _ => trivial) (fun _ _ _ _ => trivial) mm text).mono (fun _ => id) (fun _ _ => trivial)

theorem aside_activeMemories : (activeMemories u).Only A Aside (fun _ => True) :=
  only_storeSearch trivial (fun _ _ => (only_activeOnly trivial _).mono (fun _ => id) (fun _ _ => trivial))

theorem stays_aside {α : Type} {Q : α → Prop} {p : Act α} (hp : p.Only (fun _ _ => True) Aside Q) (hw : w.Traced) :
    p.Stays (handle S) Traced w :=
  .of_only hp (fun _ _ hi hw => ⟨trivial, hw.aside S hi⟩) hw

theorem reinforce_stays {m : Memory} (hw : w.Traced) (hm : Mirror u existing w) (hmem : m ∈ existing) :
    (reinforce m existing).Stays (handle S) Traced w := by
  have hget := hm.stored m hmem
  obtain rfl : m.userId = u := hw.keyed.user_eq hget
  have hw₁ : w.tick.Traced := hw.aside S (i := .utcnow) trivial
  have hw₂ : (w.tick.put (.memories m.userId) m.id (reinforced m (w.clock 0))).Traced := by
    refine hw₁.rewrite hget rfl rfl ⟨rfl, rfl, rfl⟩ (fun i hi => ?_)
    have hlive : (reinforced m (w.clock 0)).supersededBy = none := hm.live m hmem
    rw [hlive] at hi
    cases hi
  exact .call hw (.call hw₁ (.ret hw₂))

/-- The new record is there before the first old one is retired. -/
theorem supersedeAll_stays {id : String} {n : Memory} {stale : List Memory} (hw : w.Traced)
    (hnd : (stale.map (·.id)).Nodup) (hu : ∀ m ∈ stale, m.userId = u)
    (hstale : ∀ m ∈ stale, (w.mem u).get m.id = some m ∧ Replaces (w.mem u) m.id m id n) :
    (supersedeAll id stale existing).Stays (handle S) Traced w := by
  induction stale generalizing w existing with
  | nil => exact .ret hw
  | cons m stale ih =>
    obtain ⟨hm, hnd⟩ := List.nodup_cons.1 hnd
    obtain rfl : m.userId = u := hu m List.mem_cons_self
    obtain ⟨hget, hrep⟩ := hstale m List.mem_cons_self
    have hw₁ : w.tick.Traced := hw.aside S (i := .utcnow) trivial
    have hw₂ : (w.tick.put (.memories m.userId) m.id (retired m id (w.clock 0))).Traced :=
      hw₁.rewrite hget rfl rfl ⟨rfl, rfl, rfl⟩ (fun i hi => by
        obtain rfl := Option.some.inj hi
        exact ⟨n, hrep.of_twin ⟨rfl, rfl, rfl⟩⟩)
    refine .call hw (.call hw₁ (ih hw₂ hnd (fun m' hm' => hu m' (List.mem_cons_of_mem _ hm')) (fun m' hm' => ?_)))
    obtain ⟨hget', hrep'⟩ := hstale m' (List.mem_cons_of_mem _ hm')
    have hne : m'.id ≠ m.id := fun he => hm (List.mem_map.2 ⟨m', hm', he⟩)
    have hmem : (handle S (.put (.memories m.userId) m.id (retired m id (w.clock 0))) w.tick).2.mem m.userId =
        (w.mem m.userId).set m.id (retired m id (w.clock 0)) := mem_put_self w.tick _ _ _
    refine hmem.symm ▸ ⟨(Dict.get_set_of_ne _ _ hne).trans hget', hrep'.set_of_ne hrep.later.ne.symm⟩

theorem exec_build_created {m : Memory} {w' : World} (hw : w.Fed)
    (h : exec S (build c u threadId source) w = (.ok m, w')) : w.now ≤ m.createdAt ∧ m.createdAt ≤ w'.now := by
  have hnow : ∀ n, w.now ≤ w.clock n := fun n => hw.now_le.trans (hw.clock_mono (Nat.zero_le n))
  unfold build expiry at h
  cases hc : c.ttlDays with
  | none =>
    rw [hc] at h
    cases h
    exact ⟨hnow 0, hw.clock_mono (Nat.zero_le 1)⟩
  | some d =>
    rw [hc] at h
    simp only [bind_assoc, exec_utcnow] at h
    cases he : addDays (w.clock 0) d with
    | none =>
      simp only [he] at h
      cases h
    | some e =>
      simp only [he] at h
      cases h
      exact ⟨hnow 1, hw.clock_mono (Nat.le_succ 1)⟩

/-- A new record is put. -/
theorem build_put {new : Memory} {w₁ : World} (hw : w.Traced)
    (hb : exec S (build c u threadId source) w = (.ok new, w₁)) :
    SameData w w₁ ∧ New c u threadId source w w₁ new ∧ (w₁.put (.memories u) new.id new).Traced := by
  have hw₁ : w₁.Traced := by
    have haside : (build c u threadId source).Only (fun _ _ => True) Aside (fun _ => True) := aside_build
    have hrun := stays_aside (S := S) haside hw _ (Prog.reaches_run _ _)
    rwa [show (Prog.run (handle S) (build c u threadId source) w).2 = w₁ from congrArg Prod.snd hb] at hrun
  obtain ⟨m, w₂, hb', hsame, hnew⟩ : ∃ m w₂, exec S (build c u threadId source) w = (.ok m, w₂) ∧ SameData w w₂ ∧
      New c u threadId source w w₂ m := by
    rcases exec_build S c u threadId source hw.fed with ⟨d, w₂, -, -, hb', -⟩ | h
    · rw [hb] at hb'
      cases hb'
    · exact h
  rw [hb] at hb'
  cases hb'
  refine ⟨hsame, hnew, hw₁.put rfl hnew.userId hnew.id_issued (exec_build_created hw.fed hb).2 ?_⟩
  refine (hw₁.chained u).set (fun m hm => ?_) (fun i hi => ?_)
  · rw [hsame.mem, hnew.get_none hw.keyed] at hm
    cases hm
  · rw [hnew.supersededBy] at hi
    cases hi

theorem writeNew_stays (hw : w.Traced) : (writeNew c existing u threadId source).Stays (handle S) Traced w := by
  refine .bind (stays_aside aside_build hw) (fun new w₁ hb hw₁ => ?_)
  obtain ⟨-, hnew, hput⟩ := build_put hw hb
  obtain rfl : new.userId = u := hnew.userId
  exact .call hw₁ (.ret hput)

/-- After the new record is put, each rival is older and says otherwise. -/
theorem replaces_rival {new m : Memory} {w₁ : World} (hw : w.Traced) (hm : Mirror u existing w)
    (hb : exec S (build c u threadId source) w = (.ok new, w₁)) (hmem : m ∈ sameSlot c existing) (hattr : c.attr ≠ "")
    (hvalue : norm m.value ≠ norm c.value) :
    ((w.mem u).set new.id new).get m.id = some m ∧ Replaces ((w.mem u).set new.id new) m.id m new.id new := by
  obtain ⟨-, hnew, -⟩ := build_put hw hb
  obtain ⟨hexisting, hslot⟩ := mem_sameSlot.1 hmem
  have hget := hm.stored m hexisting
  have hkeys : new.id ∉ (w.mem u).keys := Dict.get_eq_none_iff.1 (hnew.get_none hw.keyed)
  refine ⟨(Dict.get_set_of_ne _ _ (hnew.ne_existing hw.keyed hm hexisting)).trans hget, ?_⟩
  exact {
    stored := Dict.get_set_self _ _ _
    slot := hnew.slot.trans hslot.symm
    slotted := by
      rw [show m.attr = c.attr from congrArg Prod.fst hslot]
      exact hattr
    value := by
      rw [hnew.value]
      exact hvalue.symm
    later := Dict.before_set_new new (Dict.mem_keys_iff.2 ⟨m, hget⟩) hkeys
    created := (hw.dated u _ m hget).trans (exec_build_created hw.fed hb).1 }

theorem resolve_stays (mm : MemoryManager) (hw : w.Traced) (hm : Mirror u existing w) :
    (resolve mm c existing u threadId source).Stays (handle S) Traced w := by
  unfold resolve
  split
  · next hattr =>
    split
    · next m hdup =>
      have hmem := (mem_sameSlot.1 (List.mem_of_find?_eq_some hdup)).1
      exact .bind (reinforce_stays hw hm hmem) (fun _ _ _ hw' => .ret hw')
    · next hdup =>
      split
      · -- the new record is put first, so each old one has a later one to point to
        refine .bind (stays_aside aside_build hw) (fun new w₁ hb hw₁ => ?_)
        obtain ⟨hsame, hnew, hput⟩ := build_put hw hb
        obtain rfl : new.userId = u := hnew.userId
        have hmem : (w₁.put (.memories new.userId) new.id new).mem new.userId = (w.mem new.userId).set new.id new :=
          (mem_put_self w₁ _ _ _).trans (congrArg (Dict.set · new.id new) hsame.mem)
        have hsup : (supersedeAll new.id (sameSlot c existing) existing).Stays (handle S) Traced
            (w₁.put (.memories new.userId) new.id new) := by
          refine supersedeAll_stays (u := new.userId) (n := new) hput ?_ ?_ (fun m hm' => ?_)
          · exact hm.nodup.sublist (List.filter_sublist.map _)
          · exact fun m hm' => hm.userId hw.keyed m (mem_sameSlot.1 hm').1
          · have hvalue : norm m.value ≠ norm c.value := by simpa using List.find?_eq_none.1 hdup m hm'
            rw [hmem]
            exact replaces_rival hw hm hb hm' hattr hvalue
        exact .call hw₁ (Prog.Stays.bind (p := supersedeAll new.id (sameSlot c existing) existing) hsup
          (fun _ _ _ hw' => .ret hw'))
      · exact writeNew_stays hw
  · refine .bind (stays_aside (aside_nearest mm c.text) hw) (fun near w₁ hn hw₁ => ?_)
    obtain ⟨near', w₂, hn', hsame, hmem⟩ := exec_nearest S mm c.text existing w
    have hn : exec S (mm.nearest c.text existing) w = (.ok near, w₁) := hn
    rw [hn] at hn'
    cases hn'
    have hm₁ : Mirror u existing w₁ := ⟨hm.nodup, fun m hm' => hsame.mem (u := u) ▸ hm.stored m hm', hm.live⟩
    cases near with
    | none => exact writeNew_stays hw₁
    | some m => exact .bind (reinforce_stays hw₁ hm₁ (hmem m rfl)) (fun _ _ _ hw' => .ret hw')

theorem resolveAll_stays (mm : MemoryManager) (cs : List CandidateFact) {report : WriteReport} (hw : w.Traced)
    (hm : Mirror u existing w) : (mm.resolveAll u threadId source cs existing report).Stays (handle S) Traced w := by
  induction cs generalizing w existing report with
  | nil => exact .ret hw
  | cons c cs ih =>
    refine .bind (resolve_stays mm hw hm) ?_
    rintro ⟨decision, memory, existing'⟩ w' hrun hw'
    have hspec := resolve_spec S mm c threadId source hw.fed (hm.userId hw.keyed)
    have hrun : exec S (resolve mm c existing u threadId source) w = (.ok (decision, memory, existing'), w') := hrun
    rw [hrun] at hspec
    exact ih hw' (hspec.mirror hw.keyed hm)

theorem quarantine_stays (text : String) (verdict : GateVerdict) (hw : w.Traced) :
    (InjectionGate.quarantine u text verdict threadId).Stays (handle S) Traced w :=
  stays_aside (Q := fun _ => True) (only_utcnow trivial
    (fun _ => only_utcnow trivial (fun _ => .call trivial (fun _ _ => .ret trivial)))) hw

/-- A turn cut short anywhere leaves sound chains. -/
theorem apply_stays (mm : MemoryManager) (text : String) (hw : w.Traced) :
    (mm.apply u text threadId source).Stays (handle S) Traced w := by
  unfold apply
  split
  · exact .ret hw
  split
  · exact .bind (quarantine_stays _ _ hw) (fun _ _ _ hw' => .ret hw')
  · refine .call hw ?_
    show Prog.Stays (handle S) Traced (if usable (S.extract (strip text)) (strip text) = [] then _ else _) w
    split
    · exact .ret hw
    · refine .bind (stays_aside aside_activeMemories hw) (fun existing w₁ hrun hw₁ => ?_)
      obtain ⟨existing', w₂, hrun', hs⟩ := exec_activeMemories S u hw.fed hw.keyed
      have hrun : exec S (activeMemories u) w = (.ok existing, w₁) := hrun
      rw [hrun] at hrun'
      cases hrun'
      exact resolveAll_stays mm _ hw₁ hs.mirror

end Parts

/-! ## Runs -/

/-- Turns from an empty store, each stopped after any of its calls or run to its end. -/
inductive TornRun : World → Prop
  | nil : TornRun Backend.empty
  | step {w w'} (h : TornRun w) (S : Services) (mm : MemoryManager) (u text : String) (threadId : Option String)
      (source : Provenance) (i : Input) (hi : i.Valid w)
      (hr : Prog.Reaches (handle S) (mm.apply u text threadId source) (w.given i) w') : TornRun w'

theorem TornRun.sound {w : World} (h : TornRun w) :
    w.Keyed ∧ (∀ u k m, (w.mem u).get k = some m → m.createdAt ≤ w.now) ∧ ∀ u, Chained (w.mem u) := by
  induction h with
  | nil => exact ⟨keyed_empty, fun _ _ _ hget => (by cases hget), fun _ _ _ _ hget => (by cases hget)⟩
  | @step w w' _ S mm u text threadId source i hi hr ih =>
    obtain ⟨hkeyed, hdated, hchained⟩ := ih
    have hw' := apply_stays (S := S) mm text ⟨fed_given hi, hkeyed.given i, hdated, hchained⟩ w' hr
    exact ⟨hw'.keyed, hw'.dated, hw'.chained⟩

/-- Whenever a record is superseded, by `i`, there is a later record `i` of the
same slot with another value; and from every record the chain ends in one that
is not superseded. -/
theorem torn_supersession {w : World} (h : TornRun w) {u k : String} {r : Memory} (hget : (w.mem u).get k = some r) :
    (∀ i, r.supersededBy = some i → ∃ n, (w.mem u).get i = some n ∧ n.attr = r.attr ∧ n.scope = r.scope ∧ r.attr ≠ "" ∧
      norm n.value ≠ norm r.value ∧ (w.mem u).Before k i ∧ r.createdAt ≤ n.createdAt) ∧
    (∃ j n, Relation.ReflTransGen (SupersededBy (w.mem u)) k j ∧ (w.mem u).get j = some n ∧ n.slot = r.slot ∧
      n.supersededBy = none) ∧
    (r.attr = "" → r.supersededBy = none) := by
  have hchained := h.sound.2.2 u
  refine ⟨fun i hi => ?_, hchained.ends k r hget, hchained.unslotted hget⟩
  obtain ⟨n, hn⟩ := hchained k r i hget hi
  exact ⟨n, hn.stored, congrArg Prod.fst hn.slot, congrArg Prod.snd hn.slot, hn.slotted, hn.value, hn.later, hn.created⟩

end Engram

/-! ## A move cut short -/

namespace Engram

open Backend

attribute [local instance] ascii

/-- The world after Alice names a team. -/
def teamNamed (w : World) (team : String) (i : Input) : World :=
  (exec teamBackend (lenient.apply "alice" team none .user) (w.given i)).2

def namedTwice : World := teamNamed (teamNamed Backend.empty "payments" (.at 1 'a')) "platform" (.at 2 'b')

/-- A third turn that is stopped after the put of its record. -/
def namedHalf : World :=
  Prog.cut (handle teamBackend) 6 (lenient.apply "alice" "infra" none .user) (namedTwice.given (.at 3 'c'))

theorem TornRun.named {w : World} (h : TornRun w) (team : String) {i : Input} (hi : i.Valid w) :
    TornRun (teamNamed w team i) :=
  .step h teamBackend lenient "alice" team none .user i hi (Prog.reaches_run _ _)

theorem torn_namedHalf : TornRun namedHalf := by
  refine .step (TornRun.named (TornRun.named .nil "payments" ?_) "platform" ?_) teamBackend lenient
    "alice" "infra" none .user (.at 3 'c') ?_ (Prog.reaches_cut 6 _ _)
  · exact Input.at_valid (by decide) (by decide)
  · exact Input.at_valid (by decide +kernel) (by decide +kernel)
  · exact Input.at_valid (by decide +kernel) (by decide +kernel)

/-- The new record is there, nothing is superseded by it yet, and the first
record leads to the second. -/
theorem torn_supersession_half : (namedHalf.mem "alice").keys = ["a", "b", "c"] ∧
    ∃ n, (namedHalf.mem "alice").get "b" = some n ∧ norm n.value ≠ norm "payments" ∧
      (namedHalf.mem "alice").Before "a" "b" ∧
      ∃ j last, Relation.ReflTransGen (SupersededBy (namedHalf.mem "alice")) "a" j ∧
        (namedHalf.mem "alice").get j = some last ∧ last.supersededBy = none := by
  obtain ⟨r, hget, hr⟩ : ∃ r, (namedHalf.mem "alice").get "a" = some r ∧
      (r.value, r.supersededBy) = ("payments", some "b") := by
    have h : ((namedHalf.mem "alice").get "a").map (fun r => (r.value, r.supersededBy)) =
        some ("payments", some "b") := by
      decide +kernel
    exact Option.map_eq_some_iff.1 h
  obtain ⟨hvalue, hby⟩ := Prod.ext_iff.1 hr
  obtain ⟨hlinks, ⟨j, last, hpath, hlast, -, hlive⟩, -⟩ := torn_supersession torn_namedHalf hget
  obtain ⟨n, hn, -, -, -, hne, hlater, -⟩ := hlinks "b" hby
  rw [show r.value = "payments" from hvalue] at hne
  exact ⟨by decide +kernel, n, hn, hne, hlater, j, last, hpath, hlast, hlive⟩

end Engram
