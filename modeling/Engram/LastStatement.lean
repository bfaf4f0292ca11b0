import Engram.Slots
import Engram.Lib.LastWins
/-!
# The last statement of a turn

A slot is a cell that the candidates of a turn are told to, in order: see
`Lib/LastWins.lean`. `Follows` says so of the resolver's loop, for a turn whose
clock stands still.
-/

namespace Engram

open MemoryManager Backend Text

variable [Host]

/-! ## Statements -/

/-- When `c`, stated at `T`, expires. -/
def CandidateFact.expiryAt (T : Time) (c : CandidateFact) : Option Time := c.ttlDays.map (fun d : PNat => T + d * day)

/-- What the resolver compares of a candidate, and its expiry. -/
def CandidateFact.statement (T : Time) (c : CandidateFact) : String × Option Time := (norm c.value, c.expiryAt T)

def Fact.statement (f : Fact) : String × Option Time := (norm f.value, f.expiresAt)

/-- The candidates of a turn about a slot. -/
def about (σ : String × String) (cs : List CandidateFact) : List CandidateFact := cs.filter (fun c => c.slot = σ)

/-- The number of records of a slot, live or not. -/
def Backend.count (w : World) (u : String) (σ : String × String) : Nat := (w.mem u).values.countP (fun m => m.slot = σ)

omit [Host] in
theorem about_append (σ : String × String) (cs : List CandidateFact) (c : CandidateFact) :
    about σ (cs ++ [c]) = about σ cs ++ if c.slot = σ then [c] else [] := by
  unfold about
  rw [List.filter_append]
  by_cases h : c.slot = σ <;> simp [h]

/-! ## Counting records -/

section Count
variable {c : CandidateFact} {u : String} {threadId : Option String} {source : Provenance}
  {existing existing' : List Memory} {w w' : World} {decision : MemoryDecision} {memory : Option Memory}
  {σ : String × String}

omit [Host] in
/-- Retiring a record moves it to no other slot. -/
theorem countP_retireAll (σ : String × String) (id : String) {rs : List (Memory × Time)} {d : Dict String Memory}
    (h : ∀ r ∈ rs, ∃ m, d.get r.1.id = some m ∧ m.slot = r.1.slot) :
    (retireAll id rs d).values.countP (fun m => m.slot = σ) = d.values.countP (fun m => m.slot = σ) := by
  induction rs generalizing d with
  | nil => rfl
  | cons r rs ih =>
    obtain ⟨m, hm, hslot⟩ := h r List.mem_cons_self
    rw [retireAll, List.foldl_cons, ← retireAll, ih]
    · refine Dict.countP_values_set _ hm ?_
      rw [show (retired r.1 id r.2).slot = r.1.slot from rfl, hslot]
    · intro q hq
      obtain ⟨n, hn, hns⟩ := h q (List.mem_cons_of_mem _ hq)
      rw [Dict.get_set]
      split
      · next hid =>
        rw [hid, hm] at hn
        cases hn
        exact ⟨_, rfl, hslot.symm.trans hns⟩
      · exact ⟨n, hn, hns⟩

/-- A slot has one record more exactly when one was written to it. -/
theorem Resolved.count (h : Resolved c u threadId source existing w (.ok (decision, memory, existing'), w'))
    (hk : w.Keyed) (hm : Mirror u existing w) (σ : String × String) :
    w'.count u σ = w.count u σ + if c.slot = σ ∧ memory ≠ none then 1 else 0 := by
  cases h with
  | @reinforced _ m t _ hmem _ hw =>
    have hsame : ((w.mem u).set m.id (MemoryManager.reinforced m t)).values.countP (fun m => m.slot = σ) =
        (w.mem u).values.countP (fun m => m.slot = σ) := Dict.countP_values_set _ (hm.stored m hmem) rfl
    unfold Backend.count
    rw [hw.mem, hsame, if_neg (fun h => h.2 rfl), Nat.add_zero]
  | @added _ new rs _ hnew hrs _ hw =>
    unfold Backend.count
    rw [hw.mem, countP_retireAll]
    · have hkey : new.id ∉ (w.mem u).keys := Dict.get_eq_none_iff.1 (hnew.get_none hk)
      rw [Dict.values_set_new _ hkey, List.countP_append, List.countP_singleton, hnew.slot]
      by_cases hσ : c.slot = σ <;> simp [hσ]
    · intro r hr
      have hmem := (rivals_subset (mem_of_rivals hrs hr)).1
      refine ⟨r.1, ?_, rfl⟩
      rw [Dict.get_set_of_ne _ _ (hnew.ne_existing hk hm hmem)]
      exact hm.stored _ hmem

end Count

/-! ## The loop -/

/-- What a turn has done to each slot after the candidates in `done`. -/
structure Follows (u : String) (T : Time) (w : World) (existing : List Memory) (done : List CandidateFact) (w' : World)
    (existing' : List Memory) : Prop where
  hidden : ∀ k m, Hidden u existing' w' k m ↔ Hidden u existing w k m
  untold : ∀ σ : String × String, σ.1 ≠ "" → about σ done = [] → facts σ existing' = facts σ existing
  told : ∀ σ : String × String, σ.1 ≠ "" → (facts σ existing').map Fact.statement =
    Cell.tellAll Prod.fst ((facts σ existing).map Fact.statement) ((about σ done).map (CandidateFact.statement T))
  count : ∀ σ : String × String, σ.1 ≠ "" → w'.count u σ = w.count u σ +
    Cell.replaced Prod.fst ((facts σ existing).map Fact.statement) ((about σ done).map (CandidateFact.statement T))

theorem Follows.start (u : String) (T : Time) (w : World) (existing : List Memory) :
    Follows u T w existing [] w existing where
  hidden _ _ := .rfl
  untold _ _ _ := rfl
  told _ _ := rfl
  count _ _ := rfl

theorem New.statement {c : CandidateFact} {u : String} {threadId : Option String} {source : Provenance} {w w' : World}
    {m : Memory} (h : New c u threadId source w w' m) {T : Time} (hT : ∀ n, w.clock n = T) :
    m.fact.statement = c.statement T := by
  obtain ⟨n, hn⟩ := h.expiresAt
  rw [hT n] at hn
  exact Prod.ext (congrArg norm h.value) hn

theorem Follows.step {c : CandidateFact} {u : String} {threadId : Option String} {source : Provenance}
    {existing₀ existing existing' : List Memory} {w₀ w w' : World} {decision : MemoryDecision} {memory : Option Memory}
    {done : List CandidateFact} {T : Time} (hI : Follows u T w₀ existing₀ done w existing)
    (h : Resolved c u threadId source existing w (.ok (decision, memory, existing'), w')) (hk : w.Keyed)
    (hm : Mirror u existing w) (hT : ∀ n, w.clock n = T) :
    Follows u T w₀ existing₀ (done ++ [c]) w' (existing' ++ memory.toList) := by
  have hkeys : ∀ σ : String × String, (facts σ existing).map (norm ·.value) =
      ((facts σ existing).map Fact.statement).map Prod.fst := fun σ => by rw [List.map_map]; rfl
  refine ⟨fun k m => (h.hidden hk hm k m).trans (hI.hidden k m), fun σ hσ hnone => ?_, fun σ hσ => ?_, fun σ hσ => ?_⟩
  · rw [about_append, List.append_eq_nil_iff] at hnone
    rcases h.facts hm hσ with ⟨hsame, -, -⟩ | ⟨new, -, hslot, -⟩
    · rw [hsame]
      exact hI.untold σ hσ hnone.1
    · rw [if_pos hslot] at hnone
      cases hnone.2
  · rw [about_append]
    rcases h.facts hm hσ with ⟨hsame, -, hheld⟩ | ⟨new, -, hslot, hnew, hunknown, hone⟩
    · rw [hsame]
      by_cases hslot : c.slot = σ
      · rw [if_pos hslot, List.map_append, Cell.tellAll_append, ← hI.told σ hσ]
        refine (Cell.tell_of_held ?_).symm
        rw [← hkeys]
        exact hheld hslot
      · rw [if_neg hslot, List.append_nil]
        exact hI.told σ hσ
    · rw [hone, if_pos hslot, List.map_append, Cell.tellAll_append, ← hI.told σ hσ]
      rw [hkeys] at hunknown
      refine Eq.trans ?_ (Cell.tell_of_new (x := c.statement T) hunknown).symm
      exact congrArg (fun x => [x]) (hnew.statement hT)
  · rw [h.count hk hm σ, about_append, hI.count σ hσ]
    rcases h.facts hm hσ with ⟨-, hmemory, hheld⟩ | ⟨new, hmemory, hslot, -, hunknown, -⟩
    · by_cases hslot : c.slot = σ
      · rw [if_neg (fun hn => hn.2 (hmemory hslot)), if_pos hslot, List.map_append,
          Cell.replaced_append, ← hI.told σ hσ]
        have hheld := hheld hslot
        rw [hkeys] at hheld
        rw [List.map_singleton, Cell.replaced_singleton, if_pos (show (c.statement T).1 ∈ _ from hheld),
          Nat.add_assoc]
      · rw [if_neg (fun hn => hslot hn.1), if_neg hslot, List.append_nil, Nat.add_zero]
    · rw [if_pos ⟨hslot, by simp [hmemory]⟩, if_pos hslot, List.map_append, Cell.replaced_append, ← hI.told σ hσ]
      rw [hkeys] at hunknown
      rw [List.map_singleton, Cell.replaced_singleton, if_neg (show (c.statement T).1 ∉ _ from hunknown), Nat.add_assoc]

/-! ## A turn at one time -/

section Turn
variable (S : Services) (mm : MemoryManager) (u text : String) (threadId : Option String) (source : Provenance)
  {w w' : World} {T : Time}

theorem After.clock_eq (h : w.After w') (hT : ∀ n, w.clock n = T) (n : Nat) : w'.clock n = T := by
  obtain ⟨k, hk⟩ := h.clock n
  rw [hk, hT]

theorem Follows.of_mem {existing : List Memory} (h : w'.mem u = w.mem u) : Follows u T w existing [] w' existing where
  hidden _ _ := Hidden.congr h
  untold _ _ _ := rfl
  told _ _ := rfl
  count σ _ := by
    unfold Backend.count
    rw [h]
    rfl

/-- A turn that returns has told each slot what its candidates say. -/
theorem apply_follows (hw : w.Fed) (hk : w.Keyed) (hT : ∀ n, w.clock n = T) {report : WriteReport}
    (hr : exec S (mm.apply u text threadId source) w = (.ok report, w')) :
    ∃ first w₁ last, Snapshot S u w first w₁ ∧ w.After w₁ ∧
      Follows u T w₁ first (told mm S text source) w' last ∧ Mirror u last w' ∧ w'.Keyed := by
  have hcases := apply_cases S mm u text threadId source hw hk
  rw [hr] at hcases
  -- A turn that resolves nothing leaves what it would have looked at.
  have hidle : told mm S text source = [] → w'.mem u = w.mem u → w'.Keyed → ∃ first w₁ last, Snapshot S u w first w₁ ∧
      w.After w₁ ∧ Follows u T w₁ first (told mm S text source) w' last ∧ Mirror u last w' ∧ w'.Keyed := by
    intro hnone hmem hk'
    obtain ⟨first, w₁, hrun, hs⟩ := exec_activeMemories S u hw hk
    rw [hnone]
    have hmem₁ : w'.mem u = w₁.mem u := hmem.trans hs.same.mem.symm
    refine ⟨first, w₁, first, hs, After.of_exec hrun, Follows.of_mem u hmem₁,
      ⟨hs.mirror.nodup, fun m hm => ?_, hs.mirror.live⟩, hk'⟩
    rw [hmem₁]
    exact hs.mirror.stored m hm
  have hk' : w'.Keyed := by
    have h := hk.perform ⟨⟨0⟩, .manager mm, false⟩ S (.observe u text threadId source)
    simp only [perform_observe, hr] at h
    exact h
  generalize hres : (Except.ok report, w') = r at hcases
  cases hcases with
  | blank h => cases hres; exact hidle (if_neg (by simp [h])) rfl hk'
  | blocked h hg => cases hres; exact hidle (if_neg (by simp [hg])) (mem_put_quarantine _ _ _ _ _) hk'
  | idle h hg hc => cases hres; exact hidle ((if_pos ⟨h, hg⟩).trans hc) rfl hk'
  | @resolved hstrip hg hc first w₁ hs hw₁ ha =>
    have htold : told mm S text source = usable (S.extract (strip text)) (strip text) := if_pos ⟨hstrip, hg⟩
    rw [htold]
    obtain ⟨done, w₂, last, report₂, ⟨hI, -⟩, hw₂, hk₂, hm₂, ha₂, hend⟩ := resolveAll_inv S mm u threadId source
      (fun done w existing _ => Follows u T w₁ first done w existing ∧ ∀ n, w.clock n = T)
      (fun done c rest w w' existing report decision memory existing' _ _ hk hm ha hI hres =>
        ⟨hI.1.step hres hk hm hI.2, After.clock_eq ha hI.2⟩)
      (show usable (S.extract (strip text)) (strip text) = [] ++ usable (S.extract (strip text)) (strip text) from rfl)
      hw₁ (hk.congr (fun _ => hs.same.mem) ha.issued) hs.mirror ⟨.start u T w₁ first, After.clock_eq ha hT⟩
    rcases hend with ⟨rfl, hrun⟩ | ⟨c, -, d, n, w₃, -, -, -, -, hrun⟩
    · rw [hrun] at hres
      cases hres
      exact ⟨first, w₁, last, hs, ha, hI, hm₂, hk₂⟩
    · rw [hrun] at hres
      cases hres

/-- A turn whose expiries are all within the calendar returns. -/
theorem apply_returns (hw : w.Fed) (hk : w.Keyed) (hT : ∀ n, w.clock n = T)
    (hover : ∀ c ∈ told mm S text source, ∀ d, c.ttlDays = some d → addDays T d ≠ none) :
    ∃ report w', exec S (mm.apply u text threadId source) w = (.ok report, w') := by
  have hcases := apply_cases S mm u text threadId source hw hk
  generalize exec S (mm.apply u text threadId source) w = r at hcases
  cases hcases with
  | blank => exact ⟨_, _, rfl⟩
  | blocked => exact ⟨_, _, rfl⟩
  | idle => exact ⟨_, _, rfl⟩
  | @resolved hstrip hg hc first w₁ hs hw₁ ha =>
    have htold : told mm S text source = usable (S.extract (strip text)) (strip text) := if_pos ⟨hstrip, hg⟩
    rw [htold] at hover
    obtain ⟨done, w₂, last, report₂, -, -, -, -, -, hend⟩ := resolveAll_inv S mm u threadId source
      (fun _ _ _ _ => True) (fun _ _ _ _ _ _ _ _ _ _ _ _ _ _ _ _ _ => trivial)
      (show usable (S.extract (strip text)) (strip text) = [] ++ usable (S.extract (strip text)) (strip text) from rfl)
      hw₁ (hk.congr (fun _ => hs.same.mem) ha.issued) hs.mirror trivial
    rcases hend with ⟨-, hrun⟩ | ⟨c, hc, d, n, w₃, hd, hn, -, -, -⟩
    · exact ⟨_, _, hrun⟩
    · rw [After.clock_eq ha hT] at hn
      exact absurd hn (hover c hc d hd)

end Turn

/-- Under `k`, a record of the slot `σ` that is live at `T`. -/
structure Backend.Live (w : World) (u : String) (T : Time) (σ : String × String) (k : String) (m : Memory) : Prop where
  stored : (w.mem u).get k = some m
  slot : m.slot = σ
  active : m.isActive T

/-- What a turn at the time `T` makes of `w`: it goes by the live records it
looks at, `first`, and leaves `last` in their place. -/
structure Turned (S : Services) (u : String) (T : Time) (cs : List CandidateFact) (w w' : World)
    (first last : List Memory) : Prop where
  nodup : (first.map (·.id)).Nodup
  seen : ∀ m, m ∈ first ↔ m ∈ window S u w ∧ m.isActive T
  live : ∀ σ : String × String, σ.1 ≠ "" → ∀ k m, w'.Live u T σ k m ↔
    (m ∈ last ∧ m.slot = σ ∧ m.id = k) ∨ (w.Live u T σ k m ∧ m ∉ window S u w)
  untold : ∀ σ : String × String, σ.1 ≠ "" → about σ cs = [] → facts σ last = facts σ first
  told : ∀ σ : String × String, σ.1 ≠ "" → (facts σ last).map Fact.statement =
    Cell.tellAll Prod.fst ((facts σ first).map Fact.statement) ((about σ cs).map (CandidateFact.statement T))
  count : ∀ σ : String × String, σ.1 ≠ "" → w'.count u σ = w.count u σ +
    Cell.replaced Prod.fst ((facts σ first).map Fact.statement) ((about σ cs).map (CandidateFact.statement T))

omit [Host] in
theorem CandidateFact.lt_of_expiryAt {c : CandidateFact} {T e : Time} (h : c.expiryAt T = some e) : T < e := by
  obtain ⟨d, -, rfl⟩ := Option.map_eq_some_iff.1 h
  exact Nat.lt_add_of_pos_right (Nat.mul_pos d.pos day_pos)

theorem Snapshot.mem_iff {S : Services} {u : String} {w w₁ : World} {first : List Memory} {T : Time}
    (hs : Snapshot S u w first w₁) (hw : w.Fed) (ha : w.After w₁) (hT : ∀ n, w.clock n = T) (m : Memory) :
    m ∈ first ↔ m ∈ window S u w ∧ m.isActive T := by
  constructor
  · intro hm
    exact ⟨hs.seen.subset hm, hT 0 ▸ hs.active m hm⟩
  · rintro ⟨hm, hact⟩
    refine hs.kept m hm (Memory.isActive_of_le ?_ hact)
    rcases ha.now with hnow | ⟨n, hnow⟩
    · rw [hnow, ← hT 0]
      exact hw.now_le
    · rw [hnow, hT]

/-- All that a turn holds of a slot at its end is live. -/
theorem Follows.active {u : String} {T : Time} {w w' : World} {first last : List Memory} {cs : List CandidateFact}
    (h : Follows u T w first cs w' last) (hm : Mirror u last w') (hfirst : ∀ m ∈ first, m.isActive T)
    {m : Memory} (hmem : m ∈ last) (hσ : m.attr ≠ "") : m.isActive T := by
  rw [Memory.isActive_iff]
  refine ⟨hm.live m hmem, fun e he => ?_⟩
  have hstatement : m.fact.statement ∈ (facts m.slot last).map Fact.statement :=
    List.mem_map.2 ⟨m.fact, mem_facts.2 ⟨m, hmem, rfl, rfl⟩, rfl⟩
  rw [h.told m.slot hσ] at hstatement
  rcases Cell.mem_tellAll hstatement with hheld | hsaid
  · obtain ⟨f, hf, hfm⟩ := List.mem_map.1 hheld
    obtain ⟨n, hn, -, rfl⟩ := mem_facts.1 hf
    have hexp : n.expiresAt = m.expiresAt := congrArg Prod.snd hfm
    exact (Memory.isActive_iff.1 (hfirst n hn)).2 e (hexp.trans he)
  · obtain ⟨c, -, hc⟩ := List.mem_map.1 hsaid
    exact CandidateFact.lt_of_expiryAt ((congrArg Prod.snd hc).trans he)

theorem apply_turned (S : Services) (mm : MemoryManager) (u text : String) (threadId : Option String)
    (source : Provenance) {w w' : World} {T : Time} (hw : w.Fed) (hk : w.Keyed) (hT : ∀ n, w.clock n = T)
    {report : WriteReport} (hr : exec S (mm.apply u text threadId source) w = (.ok report, w')) :
    ∃ first last, Turned S u T (told mm S text source) w w' first last := by
  obtain ⟨first, w₁, last, hs, ha, hI, hm, hk'⟩ := apply_follows S mm u text threadId source hw hk hT hr
  have hiff := hs.mem_iff hw ha hT
  have hcount : ∀ σ, w₁.count u σ = w.count u σ := fun σ => by unfold Backend.count; rw [hs.same.mem]
  refine ⟨first, last, hs.mirror.nodup, hiff, fun σ hσ k m => ⟨fun h => ?_, ?_⟩, hI.untold, hI.told,
    fun σ hσ => hcount σ ▸ hI.count σ hσ⟩
  · rcases hm.mem_or_hidden h.stored (Memory.isActive_iff.1 h.active).1 with hmem | hhid
    · exact .inl ⟨hmem, h.slot, hk'.id_eq h.stored⟩
    · have hhid := (hI.hidden k m).1 hhid
      have hget : (w.mem u).get k = some m := hs.same.mem ▸ hhid.stored
      refine .inr ⟨⟨hget, h.slot, h.active⟩, fun hwin => hhid.unseen ?_⟩
      exact List.mem_map.2 ⟨m, (hiff m).2 ⟨hwin, h.active⟩, hk.id_eq hget⟩
  · rintro (⟨hmem, rfl, rfl⟩ | ⟨h, hwin⟩)
    · exact ⟨hm.stored m hmem, rfl, hI.active hm (fun n hn => ((hiff n).1 hn).2) hmem hσ⟩
    · have hhid : Hidden u first w₁ k m := by
        refine ⟨hs.same.mem ▸ h.stored, (Memory.isActive_iff.1 h.active).1, fun hmem => hwin ?_⟩
        obtain ⟨n, hn, rfl⟩ := List.mem_map.1 hmem
        have hget := hs.mirror.stored n hn
        rw [hs.same.mem, h.stored] at hget
        cases hget
        exact hs.seen.subset hn
      exact ⟨((hI.hidden k m).2 hhid).stored, h.slot, h.active⟩

/-! ## Last statement wins -/

section LastWins
variable {S : Services} {u : String} {T : Time} {cs : List CandidateFact} {w w' : World} {first last : List Memory}
  {σ : String × String}

/-- The value that is live in a slot, as values are compared. -/
def Backend.liveValue (w : World) (u : String) (T : Time) (σ : String × String) : Option String :=
  ((w.mem u).values.find? (fun m => m.slot = σ ∧ m.isActive T)).map (fun m => norm m.value)

/-- With at most 500 records a turn sees every live one. -/
theorem Turned.mem_first (h : Turned S u T cs w w' first last) (hsmall : (w.mem u).size ≤ maxExisting) {k : String}
    {m : Memory} (hm : w.Live u T σ k m) : m ∈ first :=
  (h.seen m).2 ⟨mem_window_of_small hsmall hm.stored, hm.active⟩

theorem Turned.live_of_first (h : Turned S u T cs w w' first last) (hk : w.Keyed) {m : Memory} (hm : m ∈ first)
    (hσ : m.slot = σ) : w.Live u T σ m.id m := by
  obtain ⟨hwin, hact⟩ := (h.seen m).1 hm
  obtain ⟨k, hget⟩ := mem_window hwin
  exact ⟨by rw [hk.id_eq hget]; exact hget, hσ, hact⟩

/-- One live record: one fact. -/
theorem Turned.length_facts (h : Turned S u T cs w w' first last) (hk : w.Keyed) (hone : w.OneLive u T)
    (hσ : σ.1 ≠ "") : (facts σ first).length ≤ 1 := by
  unfold facts
  rw [List.length_map]
  have hnd : ((first.filter (fun m => m.slot = σ)).map (·.id)).Nodup :=
    h.nodup.sublist (List.filter_sublist.map _)
  have hsame : ∀ m ∈ first.filter (fun m => m.slot = σ), ∀ n ∈ first.filter (fun m => m.slot = σ), m.id = n.id := by
    intro m hm n hn
    obtain ⟨hm, hms⟩ := List.mem_filter.1 hm
    obtain ⟨hn, hns⟩ := List.mem_filter.1 hn
    have hm := h.live_of_first hk hm (of_decide_eq_true hms)
    have hn := h.live_of_first hk hn (of_decide_eq_true hns)
    exact hone _ _ m n hm.stored hn.stored (by rw [show m.attr = σ.1 from congrArg Prod.fst hm.slot]; exact hσ)
      (hm.slot.trans hn.slot.symm) hm.active hn.active
  generalize first.filter (fun m => m.slot = σ) = ms at hnd hsame
  match ms, hnd, hsame with
  | [], _, _ => simp
  | [m], _, _ => simp
  | m :: n :: rest, hnd, hsame => simp [hsame m (by simp) n (by simp)] at hnd

/-- Nothing said: the live record, if any, is what it was. -/
theorem Turned.live_untold (h : Turned S u T cs w w' first last) (hk : w.Keyed) (hsmall : (w.mem u).size ≤ maxExisting)
    (hσ : σ.1 ≠ "") (hnone : about σ cs = []) (k v : String) :
    (∃ m, w'.Live u T σ k m ∧ m.value = v) ↔ ∃ m, w.Live u T σ k m ∧ m.value = v := by
  have hsame := h.untold σ hσ hnone
  constructor
  · rintro ⟨m, hm, rfl⟩
    rcases (h.live σ hσ k m).1 hm with ⟨hmem, hslot, rfl⟩ | ⟨hm, -⟩
    · have hfact : m.fact ∈ facts σ first := hsame ▸ mem_facts.2 ⟨m, hmem, hslot, rfl⟩
      obtain ⟨n, hn, hns, hnm⟩ := mem_facts.1 hfact
      have hid : n.id = m.id := congrArg Fact.id hnm
      exact ⟨n, hid ▸ h.live_of_first hk hn hns, congrArg Fact.value hnm⟩
    · exact ⟨m, hm, rfl⟩
  · rintro ⟨m, hm, rfl⟩
    have hfact : m.fact ∈ facts σ last := hsame ▸ mem_facts.2 ⟨m, h.mem_first hsmall hm, hm.slot, rfl⟩
    obtain ⟨n, hn, hns, hnm⟩ := mem_facts.1 hfact
    have hid : n.id = k := (congrArg Fact.id hnm).trans (hk.id_eq hm.stored)
    exact ⟨n, (h.live σ hσ k n).2 (.inl ⟨hn, hns, hid⟩), congrArg Fact.value hnm⟩

/-- Something said: one record is live, with the value said last. -/
theorem Turned.live_told (h : Turned S u T cs w w' first last) (hk : w.Keyed) (hsmall : (w.mem u).size ≤ maxExisting)
    (hone : w.OneLive u T) (hσ : σ.1 ≠ "") (hsome : about σ cs ≠ []) :
    ∃ k m, w'.Live u T σ k m ∧ (∀ k' m', w'.Live u T σ k' m' → k' = k) ∧
      some (norm m.value) = ((about σ cs).map (fun c => norm c.value)).getLast? := by
  have hlen : ((facts σ first).map Fact.statement).length ≤ 1 := by
    rw [List.length_map]
    exact h.length_facts hk hone hσ
  obtain ⟨y, hy, hlast⟩ := Cell.tellAll_last (k := Prod.fst) hlen
    (l := (about σ cs).map (CandidateFact.statement T)) (fun hnil => hsome (List.map_eq_nil_iff.1 hnil))
  rw [← h.told σ hσ] at hy
  obtain ⟨f, hf, rfl⟩ := List.map_eq_singleton_iff.1 hy
  obtain ⟨m, hm, hms, rfl⟩ := mem_facts.1 (hf ▸ List.mem_singleton_self f)
  refine ⟨m.id, m, (h.live σ hσ m.id m).2 (.inl ⟨hm, hms, rfl⟩), fun k' m' hm' => ?_, ?_⟩
  · rcases (h.live σ hσ k' m').1 hm' with ⟨hmem, hslot, rfl⟩ | ⟨hm', hhidden⟩
    · have hfact : m'.fact ∈ facts σ last := mem_facts.2 ⟨m', hmem, hslot, rfl⟩
      rw [hf, List.mem_singleton] at hfact
      exact congrArg Fact.id hfact
    · exact absurd ((h.seen m').1 (h.mem_first hsmall hm')).1 hhidden
  · rw [List.map_map] at hlast
    exact hlast

theorem Turned.liveValue_eq (h : Turned S u T cs w w' first last) (hk : w.Keyed) (hsmall : (w.mem u).size ≤ maxExisting)
    (hone : w.OneLive u T) (hσ : σ.1 ≠ "") :
    w.liveValue u T σ = ((facts σ first).map Fact.statement).head?.map Prod.fst := by
  unfold Backend.liveValue
  cases hfind : (w.mem u).values.find? (fun m => m.slot = σ ∧ m.isActive T) with
  | none =>
    have hnil : facts σ first = [] := by
      rw [List.eq_nil_iff_forall_not_mem]
      intro f hf
      obtain ⟨m, hm, hms, -⟩ := mem_facts.1 hf
      have hlive := h.live_of_first hk hm hms
      have hno := List.find?_eq_none.1 hfind m (Dict.mem_values_iff.2 ⟨m.id, hlive.stored⟩)
      exact hno (by simp [hms, hlive.active])
    rw [hnil]
    rfl
  | some m =>
    obtain ⟨k, hget⟩ := Dict.mem_values_iff.1 (List.mem_of_find?_eq_some hfind)
    have hm : m.slot = σ ∧ m.isActive T := by simpa using List.find?_some hfind
    have hfact : m.fact ∈ facts σ first := mem_facts.2 ⟨m, h.mem_first hsmall ⟨hget, hm.1, hm.2⟩, hm.1, rfl⟩
    have hlen := h.length_facts hk hone hσ
    match facts σ first, hfact, hlen with
    | [f], hfact, _ =>
      rw [← List.mem_singleton.1 hfact]
      rfl

end LastWins

/-- A turn implements last-statement-wins in every slot: an unmentioned one keeps
its live record; in any other exactly one record is live, with the value stated
last, and as many records were created as the value changed. -/
theorem apply_last_wins (S : Services) (mm : MemoryManager) (u text : String) (threadId : Option String)
    (source : Provenance) {w : World} {T : Time} (hw : w.Fed) (hk : w.Keyed) (hT : ∀ n, w.clock n = T)
    (hsmall : (w.mem u).size ≤ maxExisting) (hone : w.OneLive u T)
    (hover : ∀ c ∈ told mm S text source, ∀ d, c.ttlDays = some d → addDays T d ≠ none) :
    ∃ report w', exec S (mm.apply u text threadId source) w = (.ok report, w') ∧ ∀ σ : String × String, σ.1 ≠ "" →
      (about σ (told mm S text source) = [] →
        ∀ k v, (∃ m, w'.Live u T σ k m ∧ m.value = v) ↔ ∃ m, w.Live u T σ k m ∧ m.value = v) ∧
      (about σ (told mm S text source) ≠ [] →
        ∃ k m, w'.Live u T σ k m ∧ (∀ k' m', w'.Live u T σ k' m' → k' = k) ∧
          some (norm m.value) = ((about σ (told mm S text source)).map (fun c => norm c.value)).getLast?) ∧
      w'.count u σ = w.count u σ +
        Cell.changes (w.liveValue u T σ) ((about σ (told mm S text source)).map (fun c => norm c.value)) := by
  obtain ⟨report, w', hr⟩ := apply_returns S mm u text threadId source hw hk hT hover
  obtain ⟨first, last, h⟩ := apply_turned S mm u text threadId source hw hk hT hr
  refine ⟨report, w', hr, fun σ hσ => ⟨h.live_untold hk hsmall hσ, h.live_told hk hsmall hone hσ, ?_⟩⟩
  have hlen : ((facts σ first).map Fact.statement).length ≤ 1 := by
    rw [List.length_map]
    exact h.length_facts hk hone hσ
  rw [h.count σ hσ, Cell.replaced_eq_changes hlen, ← h.liveValue_eq hk hsmall hone hσ, List.map_map]
  rfl

/-! ## How long a statement lasts -/

/-- Before a turn with the candidates `cs` about `σ`: some live record of the slot
has the value of `c`. -/
def Backend.Known (S : Services) (w : World) (u : String) (T : Time) (σ : String × String) (c : CandidateFact) : Prop :=
  ∃ k m, w.Live u T σ k m ∧ m ∈ window S u w ∧ norm m.value = norm c.value

section Honours
variable {S : Services} {u : String} {T : Time} {cs : List CandidateFact} {w w' : World} {first last : List Memory}
  {σ : String × String} {c : CandidateFact}

/-- After a turn, what is live in a slot is what it told, or was out of its sight. -/
theorem Turned.live_iff (h : Turned S u T cs w w' first last) (hσ : σ.1 ≠ "") {P : String × Option Time → Prop} :
    (∃ k m, w'.Live u T σ k m ∧ P m.fact.statement) ↔ (∃ x ∈ (facts σ last).map Fact.statement, P x) ∨
      ∃ k m, w.Live u T σ k m ∧ m ∉ window S u w ∧ P m.fact.statement := by
  constructor
  · rintro ⟨k, m, hm, hP⟩
    rcases (h.live σ hσ k m).1 hm with ⟨hmem, hslot, -⟩ | ⟨hm, hwin⟩
    · exact .inl ⟨_, List.mem_map.2 ⟨m.fact, mem_facts.2 ⟨m, hmem, hslot, rfl⟩, rfl⟩, hP⟩
    · exact .inr ⟨k, m, hm, hwin, hP⟩
  · rintro (⟨x, hx, hP⟩ | ⟨k, m, hm, hwin, hP⟩)
    · obtain ⟨f, hf, rfl⟩ := List.mem_map.1 hx
      obtain ⟨m, hmem, hslot, rfl⟩ := mem_facts.1 hf
      exact ⟨m.id, m, (h.live σ hσ m.id m).2 (.inl ⟨hmem, hslot, rfl⟩), hP⟩
    · exact ⟨k, m, (h.live σ hσ k m).2 (.inr ⟨hm, hwin⟩), hP⟩

end Honours

end Engram

/-! ## Turns -/

namespace Engram

open Backend Text MemoryManager

attribute [local instance] ascii

theorem moved_input : (joined.given (.at 2 'b')).Fed ∧ joined.Keyed := by
  have hjoined : joined.Stamped 1 ['a'] := Stamped.empty.perform (by decide) 'a' _ teamBackend _
  exact ⟨fed_given (hjoined.valid (by decide) (by decide)), (keyed_empty.given _).perform _ _ _⟩

theorem told_platform : told lenient teamBackend "platform" .user = [.stating "team" "platform" none] := by
  decide +kernel

/-- The user's second team is the live one. -/
theorem apply_last_wins_moved : ∃ report w',
    exec teamBackend (lenient.apply "alice" "platform" none .user) (joined.given (.at 2 'b')) = (.ok report, w') ∧
      ∃ k m, w'.Live "alice" 2 ("team", "") k m ∧ norm m.value = "platform" := by
  have hsize : ((joined.given (.at 2 'b')).mem "alice").size = 1 := by decide +kernel
  have hone : (joined.given (.at 2 'b')).OneLive "alice" 2 := by
    intro k k' m m' hget hget' _ _ _ _
    have hall : ∀ e ∈ ((joined.given (.at 2 'b')).mem "alice").entries, e.1 = "a" := by decide +kernel
    exact (hall _ (Dict.get_eq_some_iff.1 hget)).trans (hall _ (Dict.get_eq_some_iff.1 hget')).symm
  obtain ⟨report, w', hr, hslots⟩ := apply_last_wins teamBackend lenient "alice" "platform" none .user (T := 2)
    moved_input.1 (moved_input.2.given _) (fun _ => rfl) (by rw [hsize]; decide) hone (by
      rw [told_platform]
      intro c hc d hd
      obtain rfl := List.mem_singleton.1 hc
      cases hd)
  obtain ⟨k, m, hm, -, hval⟩ := (hslots ("team", "") (by decide)).2.1 (by rw [told_platform]; decide)
  refine ⟨report, w', hr, k, m, hm, Option.some.inj (hval.trans ?_)⟩
  rw [told_platform]
  decide +kernel

end Engram
