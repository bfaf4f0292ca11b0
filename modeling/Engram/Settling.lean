import Engram.LastStatement
import Engram.Returns
import Engram.Races
/-!
# One candidate, from any working list

After an aborted turn, or two turns at once, a slot holds several live values.
A candidate that is none of them retires them all. A candidate that is one of
them is found to be known, and the resolver returns before it retires the
others (`resolve_settles_iff`).
-/

namespace Engram

open MemoryManager Backend Text

variable [Host]

/-! ## The fetched records -/

/-- The working list holds the records of `u` that are live at `T`. -/
structure Fetched (u : String) (T : Time) (existing : List Memory) (w : World) : Prop where
  nodup : (existing.map (·.id)).Nodup
  stored : ∀ m ∈ existing, (w.mem u).get m.id = some m
  active : ∀ m ∈ existing, m.isActive T
  all : ∀ k m, (w.mem u).get k = some m → m.isActive T → m ∈ existing

namespace Fetched
variable {u : String} {T : Time} {existing : List Memory} {w : World} {σ : String × String}

theorem mirror (h : Fetched u T existing w) : Mirror u existing w :=
  ⟨h.nodup, h.stored, fun m hm => (Memory.isActive_iff.1 (h.active m hm)).1⟩

theorem not_hidden (h : Fetched u T existing w) (hk : w.Keyed) {k : String} {m : Memory} (ha : m.isActive T) :
    ¬ Hidden u existing w k m :=
  fun hid => hid.unseen (List.mem_map.2 ⟨m, h.all k m hid.stored ha, hk.id_eq hid.stored⟩)

theorem live_iff (h : Fetched u T existing w) (hk : w.Keyed) {k : String} {m : Memory} :
    w.Live u T σ k m ↔ (m ∈ existing ∧ m.slot = σ) ∧ m.id = k := by
  constructor
  · rintro ⟨hget, hslot, ha⟩
    exact ⟨⟨h.all k m hget ha, hslot⟩, hk.id_eq hget⟩
  · rintro ⟨⟨hm, hslot⟩, rfl⟩
    exact ⟨h.stored m hm, hslot, h.active m hm⟩

/-- One record of a slot in the working list is one live record of it in the store. -/
theorem filter_eq_singleton_iff (h : Fetched u T existing w) (hk : w.Keyed) {m : Memory} :
    existing.filter (fun x => x.slot = σ) = [m] ↔ ∀ k x, w.Live u T σ k x ↔ k = m.id ∧ x = m := by
  have hmem : ∀ x, x ∈ existing.filter (fun x => x.slot = σ) ↔ x ∈ existing ∧ x.slot = σ := by simp
  constructor
  · intro hone k x
    rw [h.live_iff hk, ← hmem, hone, List.mem_singleton]
    constructor
    · rintro ⟨rfl, rfl⟩
      exact ⟨rfl, rfl⟩
    · rintro ⟨rfl, rfl⟩
      exact ⟨rfl, rfl⟩
  · intro hlive
    have hnd : (existing.filter (fun x => x.slot = σ)).Nodup := (List.Nodup.of_map _ h.nodup).filter _
    have hself : m ∈ existing.filter (fun x => x.slot = σ) :=
      (hmem m).2 ((h.live_iff hk).1 ((hlive m.id m).2 ⟨rfl, rfl⟩)).1
    refine (List.perm_singleton.1 ((List.perm_ext_iff_of_nodup hnd (List.nodup_singleton m)).2 (fun x => ?_)))
    rw [List.mem_singleton]
    constructor
    · intro hx
      exact ((hlive x.id x).1 ((h.live_iff hk).2 ⟨(hmem x).1 hx, rfl⟩)).2
    · rintro rfl
      exact hself

end Fetched

/-! ## What resolving keeps -/

section Step
variable {c : CandidateFact} {u : String} {threadId : Option String} {source : Provenance}
  {existing existing' : List Memory} {w w' : World} {decision : MemoryDecision} {memory : Option Memory} {T : Time}

/-- The working list goes on holding the live records. -/
theorem Resolved.fetched (h : Resolved c u threadId source existing w (.ok (decision, memory, existing'), w'))
    (hw : w.Fed) (hk : w.Keyed) (hT : T ≤ w.clock 0) (hf : Fetched u T existing w) :
    Fetched u T (existing' ++ memory.toList) w' := by
  have hm := h.mirror hk hf.mirror
  refine ⟨hm.nodup, hm.stored, fun m hmem => ?_, fun k m hget ha => ?_⟩
  · have hget := hm.stored m hmem
    have hfate := h.fate hk hf.mirror m.id
    rw [hget] at hfate
    generalize ho : (w.mem u).get m.id = o at hfate
    cases hfate with
    | same =>
      -- A record that was there and is not superseded was in the list before.
      rcases hf.mirror.mem_or_hidden ho (hm.live m hmem) with hin | hhid
      · exact hf.active m hin
      · exact absurd (List.mem_map_of_mem hmem) ((h.hidden hk hf.mirror m.id m).2 hhid).unseen
    | reinforced n t hn => exact (Memory.isActive_congr (m := n) rfl rfl T).trans (hf.active n hn)
    | retired n id t hn => cases hm.live _ hmem
    | new _ hnew =>
      refine Memory.isActive_iff.2 ⟨hnew.supersededBy, fun e he => ?_⟩
      obtain ⟨n, hn⟩ := hnew.expiresAt
      rw [hn] at he
      obtain ⟨d, -, rfl⟩ := Option.map_eq_some_iff.1 he
      calc T ≤ w.clock n := hT.trans (hw.clock_mono (Nat.zero_le n))
        _ < w.clock n + d * day := Nat.lt_add_of_pos_right (Nat.mul_pos d.pos day_pos)
  · rcases hm.mem_or_hidden hget (Memory.isActive_iff.1 ha).1 with hmem | hhid
    · exact hmem
    · exact absurd ((h.hidden hk hf.mirror k m).1 hhid) (hf.not_hidden hk ha)

/-- The rivals of a record that was added are retired for it. -/
theorem Resolved.rival {new : Memory}
    (h : Resolved c u threadId source existing w (.ok (decision, some new, existing'), w')) (hm : Mirror u existing w)
    {m : Memory} (hmem : m ∈ rivals c existing) : ∃ t, (w'.mem u).get m.id = some (retired m new.id t) := by
  cases h with
  | added _ hnew hrs hc hw =>
    rw [hw.mem]
    exact get_added_rival new hm hrs hmem

end Step

/-! ## A settled slot -/

/-- One live record of the slot of `c` is left, in the store and in the list
`after`; it has the value of `c`, and the others of `before` were superseded by it. -/
def Settles (c : CandidateFact) (u : String) (T : Time) (before after : List Memory) (w' : World) : Prop :=
  ∃ m, norm m.value = norm c.value ∧ (∀ k x, w'.Live u T c.slot k x ↔ k = m.id ∧ x = m) ∧
    after.filter (fun x => x.slot = c.slot ∧ x.isActive T) = [m] ∧
    ∀ x ∈ before, x.slot = c.slot → x.id ≠ m.id → ∃ x', (w'.mem u).get x.id = some x' ∧ x'.supersededBy = some m.id

section Settles
variable {c : CandidateFact} {u : String} {T : Time} {before after existing : List Memory} {w w' : World}

omit [Host] in
theorem sameSlot_eq_filter : sameSlot c existing = existing.filter (fun x => x.slot = c.slot) :=
  List.filter_congr (fun x _ => by simp [Memory.slot, CandidateFact.slot])

omit [Host] in
theorem facts_eq_sameSlot : facts c.slot existing = (sameSlot c existing).map Memory.fact := by
  rw [sameSlot_eq_filter, facts]

/-- Where the list holds the live records, one of the slot in the list says it all. -/
theorem settles_iff (hf : Fetched u T after w') (hk : w'.Keyed) :
    Settles c u T before after w' ↔ ∃ m, sameSlot c after = [m] ∧ norm m.value = norm c.value ∧
      ∀ x ∈ sameSlot c before, x.id ≠ m.id → ∃ x', (w'.mem u).get x.id = some x' ∧ x'.supersededBy = some m.id := by
  have hactive : after.filter (fun x => x.slot = c.slot ∧ x.isActive T) = sameSlot c after := by
    rw [sameSlot_eq_filter]
    exact List.filter_congr (fun x hx => by simp [hf.active x hx])
  unfold Settles
  simp only [hactive, ← hf.filter_eq_singleton_iff hk, ← sameSlot_eq_filter, mem_sameSlot, and_imp]
  constructor
  · rintro ⟨m, hval, hone, -, hgone⟩
    exact ⟨m, hone, hval, hgone⟩
  · rintro ⟨m, hone, hval, hgone⟩
    exact ⟨m, hval, hone, hone, hgone⟩

omit [Host] in
theorem value_eq_of_fact {m m' : Memory} (h : m.fact = m'.fact) : m.value = m'.value := congrArg Fact.value h

/-- A candidate that went through leaves its slot settled unless its value was
one of several. -/
theorem Resolved.settles_iff {threadId : Option String} {source : Provenance} {existing' : List Memory}
    {decision : MemoryDecision} {memory : Option Memory}
    (h : Resolved c u threadId source existing w (.ok (decision, memory, existing'), w')) (hattr : c.attr ≠ "")
    (hw : w.Fed) (hk : w.Keyed) (ha : w.After w') (hT : T ≤ w.clock 0) (hf : Fetched u T existing w) :
    Settles c u T existing (existing' ++ memory.toList) w' ↔
      (∃ m, sameSlot c existing = [m] ∧ norm m.value = norm c.value) ∨
        ∀ m ∈ sameSlot c existing, norm m.value ≠ norm c.value := by
  rw [Engram.settles_iff (h.fetched hw hk hT hf) (h.keyed hk hf.mirror ha)]
  have hslot : c.slot.1 ≠ "" := hattr
  rcases h.facts hf.mirror hslot with ⟨hsame, -, hvalue⟩ | ⟨new, rfl, -, hnew, hvalue, hone⟩
  · -- The value is known, and the records of the slot are those there were.
    rw [facts_eq_sameSlot, facts_eq_sameSlot] at hsame
    obtain ⟨x, hx, hval⟩ : ∃ x ∈ sameSlot c existing, norm x.value = norm c.value := by
      have := hvalue rfl
      rw [facts_eq_sameSlot, List.map_map] at this
      exact List.mem_map.1 this
    rw [or_iff_left (fun h => h x hx hval)]
    constructor
    · rintro ⟨m, hm, hmval, -⟩
      rw [hm] at hsame
      obtain ⟨y, hy, hfact⟩ := List.map_eq_singleton_iff.1 hsame.symm
      exact ⟨y, hy, by rw [value_eq_of_fact hfact, hmval]⟩
    · rintro ⟨y, hy, hyval⟩
      rw [hy] at hsame
      obtain ⟨m, hm, hfact⟩ := List.map_eq_singleton_iff.1 hsame
      refine ⟨m, hm, by rw [value_eq_of_fact hfact, hyval], fun z hz hne => ?_⟩
      rw [hy, List.mem_singleton] at hz
      subst hz
      exact absurd (congrArg Fact.id hfact).symm hne
  · -- A new record is all there is, and the others are its rivals.
    rw [facts_eq_sameSlot] at hone hvalue
    obtain ⟨m, hm, hfact⟩ := List.map_eq_singleton_iff.1 hone
    have hid : m.id = new.id := congrArg Fact.id hfact
    refine iff_of_true ⟨m, hm, ?_, fun x hx _ => ?_⟩ (.inr (fun m hm hval => ?_))
    · rw [value_eq_of_fact hfact, hnew.value]
    · obtain ⟨t, hget⟩ := h.rival hf.mirror (show x ∈ rivals c existing by rw [rivals, if_neg hattr]; exact hx)
      exact ⟨_, hget, congrArg some hid.symm⟩
    · rw [List.map_map] at hvalue
      exact hvalue (List.mem_map.2 ⟨m, hm, hval⟩)

end Settles

/-- Resolving a slotted candidate leaves one live record of the slot, with its
value, for which the others were superseded, if and only if either the value is
known and its record is the only one of the slot, or it is not known and the
expiry of a new record is within the calendar. -/
theorem resolve_settles_iff (S : Services) (mm : MemoryManager) {c : CandidateFact} (hattr : c.attr ≠ "")
    {u : String} (threadId : Option String) (source : Provenance) {T : Time} {existing : List Memory} {w : World}
    (hw : w.Fed) (hk : w.Keyed) (hT : T ≤ w.clock 0) (hf : Fetched u T existing w) :
    (∃ decision memory existing' w', exec S (resolve mm c existing u threadId source) w =
        (.ok (decision, memory, existing'), w') ∧ Settles c u T existing (existing' ++ memory.toList) w') ↔
      (∃ m, sameSlot c existing = [m] ∧ norm m.value = norm c.value) ∨
        (∀ m ∈ sameSlot c existing, norm m.value ≠ norm c.value) ∧ c.Fits (w.clock 0) := by
  have hthrough : (∃ r w', exec S (resolve mm c existing u threadId source) w = (.ok r, w')) ↔
      Known S mm c existing w ∨ c.Fits (w.clock 0) := resolve_returns_iff S mm
  rw [Known, if_pos hattr] at hthrough
  have hspec := resolve_spec S mm c threadId source hw (hf.mirror.userId hk)
  rcases hr : exec S (resolve mm c existing u threadId source) w with ⟨e | ⟨decision, memory, existing'⟩, w'⟩
  · -- An expiry past the calendar: the value is not known, and the expiry does not fit.
    rw [hr] at hthrough
    refine iff_of_false (fun h => ?_) (fun h => ?_)
    · obtain ⟨_, _, _, _, h, -⟩ := h
      cases h
    · have hor : (∃ m ∈ sameSlot c existing, norm m.value = norm c.value) ∨ c.Fits (w.clock 0) :=
        h.imp (fun ⟨m, hm, hval⟩ => ⟨m, hm ▸ List.mem_cons_self, hval⟩) And.right
      obtain ⟨_, _, h⟩ := hthrough.2 hor
      cases h
  · have hor := hthrough.1 ⟨_, _, hr⟩
    rw [hr] at hspec
    have hsettles := hspec.settles_iff hattr hw hk (After.of_exec hr) hT hf
    constructor
    · rintro ⟨_, _, _, _, h, hset⟩
      cases h
      refine (hsettles.1 hset).imp_right (fun hnone => ⟨hnone, hor.resolve_left ?_⟩)
      rintro ⟨m, hm, hval⟩
      exact hnone m hm hval
    · intro h
      exact ⟨_, _, _, _, rfl, hsettles.2 (h.imp_right And.left)⟩

end Engram

/-! ## After two turns at once -/

namespace Engram

open Interleave MemoryManager Backend

attribute [local instance] ascii

/-- Two turns have left two live teams, "payments" and "platform"; the next turn starts at 2. -/
def bothTeams : World := (play (fun _ => handle teamBackend) bothList twoTeams).state.given (.at 2 'c')

theorem overlaps_bothTeams : Overlaps (fun _ => teamBackend) (fun _ _ _ _ => True) twoTeams
    (play (fun _ => handle teamBackend) bothList twoTeams) := reach_play (meets_true _ _)

theorem fed_bothTeams : bothTeams.Fed := fed_given (Input.at_valid (by decide +kernel) (by decide +kernel))

theorem keyed_bothTeams : bothTeams.Keyed := (overlaps_bothTeams.keyed (keyed_empty.given _)).given _

theorem fetched_bothTeams : Fetched "alice" 2 (bothTeams.mem "alice").values bothTeams where
  nodup := by decide +kernel
  stored := by decide +kernel
  active := by decide +kernel
  all k m hget _ := List.mem_map.2 ⟨(k, m), Dict.get_eq_some_iff.1 hget, rfl⟩

/-- Told "payments" again, the resolver leaves both. -/
theorem resolve_unsettled : bothTeams.Fed ∧ bothTeams.Keyed ∧
    Fetched "alice" 2 (bothTeams.mem "alice").values bothTeams ∧
    MemoryManager.isUsable (.stating "team" "payments" none) ∧
    ¬ ∃ decision memory existing' w', exec teamBackend (lenient.resolve (.stating "team" "payments" none)
        (bothTeams.mem "alice").values "alice" none .user) bothTeams = (.ok (decision, memory, existing'), w') ∧
      Settles (.stating "team" "payments" none) "alice" 2 (bothTeams.mem "alice").values
        (existing' ++ memory.toList) w' := by
  refine ⟨fed_bothTeams, keyed_bothTeams, fetched_bothTeams, by decide +kernel, ?_⟩
  rintro ⟨decision, memory, existing', w', hr, m, -, -, hone, -⟩
  have htwo : (exec teamBackend (lenient.resolve (.stating "team" "payments" none) (bothTeams.mem "alice").values
      "alice" none .user) bothTeams).1.toOption.map (fun r => ((r.2.2 ++ r.2.1.toList).filter
        (fun x => x.slot = (CandidateFact.stating "team" "payments" none).slot ∧ x.isActive 2)).length) = some 2 := by
    decide +kernel
  rw [hr] at htwo
  simp only [Except.toOption, Option.map_some, hone, List.length_singleton] at htwo
  cases htwo

/-- Told "search", it retires both. -/
theorem resolve_settles_iff_search : ∃ decision memory existing' w',
    exec teamBackend (lenient.resolve (.stating "team" "search" none) (bothTeams.mem "alice").values "alice" none .user)
        bothTeams = (.ok (decision, memory, existing'), w') ∧
      Settles (.stating "team" "search" none) "alice" 2 (bothTeams.mem "alice").values
        (existing' ++ memory.toList) w' :=
  (resolve_settles_iff teamBackend lenient (c := .stating "team" "search" none) (by decide) none .user fed_bothTeams
    keyed_bothTeams (by decide +kernel) fetched_bothTeams).2 (.inr ⟨by decide +kernel, fun _ hd => by cases hd⟩)

end Engram
