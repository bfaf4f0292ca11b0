import Engram.Records
/-!
# A turn

The working list mirrors the store through every candidate of a turn, and
`resolveAll_inv` carries any further invariant along with it. `apply_cases`
says what `apply` can do.
-/

namespace Engram

open MemoryManager Backend Text

variable [Host]

/-! ## The working list -/

/-- The working list holds distinct records as they are stored, none superseded. -/
structure Mirror (u : String) (existing : List Memory) (w : World) : Prop where
  nodup : (existing.map (·.id)).Nodup
  stored : ∀ m ∈ existing, (w.mem u).get m.id = some m
  live : ∀ m ∈ existing, m.supersededBy = none

namespace Mirror
variable {u : String} {existing : List Memory} {w : World}

theorem userId (h : Mirror u existing w) (hk : w.Keyed) : ∀ m ∈ existing, m.userId = u :=
  fun m hm => hk.user_eq (h.stored m hm)

theorem issued (h : Mirror u existing w) (hk : w.Keyed) : ∀ m ∈ existing, m.id ∈ w.issued :=
  fun m hm => hk.issued (h.stored m hm)

theorem eq_of_id (h : Mirror u existing w) {m n : Memory} (hm : m ∈ existing) (hn : n ∈ existing)
    (hid : m.id = n.id) : m = n :=
  List.inj_on_of_nodup_map h.nodup hm hn hid

end Mirror

section Lists
omit [Host]

/-- Ids are distinct, so replacing the first record with an id replaces all of them. -/
theorem replace_eq_map {x : Memory} {l : List Memory} (h : (l.map (·.id)).Nodup) :
    replace x l = l.map (fun n => if n.id = x.id then x else n) := by
  induction l with
  | nil => rfl
  | cons a l ih =>
    obtain ⟨ha, hl⟩ := List.nodup_cons.1 h
    by_cases hx : a.id = x.id
    · have hrest : l.map (fun n => if n.id = x.id then x else n) = l := by
        refine (List.map_congr_left (fun n hn => if_neg ?_)).trans (List.map_id l)
        rintro hnx
        exact ha (List.mem_map.2 ⟨n, hn, hnx.trans hx.symm⟩)
      simp only [replace, if_pos hx, List.map_cons, hrest]
    · simp only [replace, if_neg hx, List.map_cons, ih hl]

theorem map_id_replace {x : Memory} {l : List Memory} (h : (l.map (·.id)).Nodup) :
    (replace x l).map (·.id) = l.map (·.id) := by
  rw [replace_eq_map h, List.map_map]
  refine List.map_congr_left (fun n _ => ?_)
  simp only [Function.comp]
  split
  · next hn => exact hn.symm
  · rfl

theorem mem_replace {x n : Memory} {l : List Memory} (h : (l.map (·.id)).Nodup) (hx : x.id ∈ l.map (·.id)) :
    n ∈ replace x l ↔ n = x ∨ (n ∈ l ∧ n.id ≠ x.id) := by
  rw [replace_eq_map h, List.mem_map]
  constructor
  · rintro ⟨a, ha, rfl⟩
    split
    · exact .inl rfl
    · next hne => exact .inr ⟨ha, hne⟩
  · rintro (rfl | ⟨hn, hne⟩)
    · obtain ⟨a, ha, haid⟩ := List.mem_map.1 hx
      exact ⟨a, ha, if_pos haid⟩
    · exact ⟨n, hn, if_neg hne⟩

theorem nodup_ids_append {x : Memory} {l : List Memory} (h : (l.map (·.id)).Nodup) (hne : ∀ m ∈ l, m.id ≠ x.id) :
    ((l ++ [x]).map (·.id)).Nodup := by
  rw [List.map_append, List.nodup_append]
  refine ⟨h, List.nodup_singleton _, ?_⟩
  rintro a ha b hb rfl
  obtain ⟨m, hm, rfl⟩ := List.mem_map.1 ha
  exact hne m hm (List.mem_singleton.1 hb)

theorem mem_ids_filter {l : List Memory} {p : String → Bool} {k : String} :
    k ∈ (l.filter (fun m => p m.id)).map (·.id) ↔ k ∈ l.map (·.id) ∧ p k := by
  rw [← List.mem_filter, List.filter_map]
  rfl

theorem rivals_subset {c : CandidateFact} {l : List Memory} {m : Memory} (h : m ∈ rivals c l) :
    m ∈ l ∧ m.slot = c.slot := by
  unfold rivals at h
  split at h
  · cases h
  · exact mem_sameSlot.1 h

theorem rivals_sublist (c : CandidateFact) (l : List Memory) : (rivals c l).Sublist l := by
  unfold rivals
  split
  · exact List.nil_sublist l
  · exact List.filter_sublist

end Lists

/-! ## What happens to one record -/

/-- What a candidate does to the record under one key. -/
inductive Fate (c : CandidateFact) (u : String) (threadId : Option String) (source : Provenance)
    (existing : List Memory) (w w' : World) : Option Memory → Option Memory → Prop
  | same (o : Option Memory) : Fate c u threadId source existing w w' o o
  | reinforced (m : Memory) (t : Time) (hm : m ∈ existing) :
      Fate c u threadId source existing w w' (some m) (some (reinforced m t))
  | retired (m : Memory) (id : String) (t : Time) (hm : m ∈ rivals c existing) :
      Fate c u threadId source existing w w' (some m) (some (retired m id t))
  | new (m : Memory) (hm : New c u threadId source w w' m) :
      Fate c u threadId source existing w w' none (some m)

section Added
variable {c : CandidateFact} {u : String} {threadId : Option String} {source : Provenance} {existing : List Memory}
  {w w' : World} {new : Memory} {rs : List (Memory × Time)}

/-- An id that was not issued holds no record. -/
theorem New.get_none (h : New c u threadId source w w' new) (hk : w.Keyed) : (w.mem u).get new.id = none := by
  cases hg : (w.mem u).get new.id with
  | none => rfl
  | some m => exact absurd (hk.issued hg) h.id_new

theorem New.ne_existing (h : New c u threadId source w w' new) (hk : w.Keyed) (hm : Mirror u existing w)
    {m : Memory} (hmem : m ∈ existing) : m.id ≠ new.id :=
  fun he => h.id_new (he ▸ hm.issued hk m hmem)

omit [Host] in
theorem mem_of_rivals (hrs : rs.map Prod.fst = rivals c existing) {r : Memory × Time} (hr : r ∈ rs) :
    r.1 ∈ rivals c existing :=
  hrs ▸ List.mem_map.2 ⟨r, hr, rfl⟩

theorem get_added_new (h : New c u threadId source w w' new) (hk : w.Keyed) (hm : Mirror u existing w)
    (hrs : rs.map Prod.fst = rivals c existing) :
    (retireAll new.id rs ((w.mem u).set new.id new)).get new.id = some new := by
  rw [get_retireAll_of_notMem, Dict.get_set_self]
  intro r hr
  exact h.ne_existing hk hm (rivals_subset (mem_of_rivals hrs hr)).1

theorem get_added_rival (new : Memory) (hm : Mirror u existing w) (hrs : rs.map Prod.fst = rivals c existing)
    {m : Memory} (hmem : m ∈ rivals c existing) :
    ∃ t, (retireAll new.id rs ((w.mem u).set new.id new)).get m.id = some (retired m new.id t) := by
  obtain ⟨r, hr, rfl⟩ := List.mem_map.1 (hrs.symm ▸ hmem)
  refine ⟨r.2, get_retireAll_of_mem ?_ hr⟩
  have hmap : rs.map (fun r => r.1.id) = (rivals c existing).map (·.id) := by
    rw [← hrs, List.map_map]
    rfl
  rw [hmap]
  exact hm.nodup.sublist ((rivals_sublist c existing).map _)

theorem get_added_other (hrs : rs.map Prod.fst = rivals c existing) {k : String} (hk : k ≠ new.id)
    (hriv : ∀ m ∈ rivals c existing, m.id ≠ k) :
    (retireAll new.id rs ((w.mem u).set new.id new)).get k = (w.mem u).get k := by
  rw [get_retireAll_of_notMem (fun r hr => hriv _ (mem_of_rivals hrs hr)), Dict.get_set_of_ne _ _ hk]

/-- Each record is the new one, a rival, or as it was. -/
theorem added_cases (hnew : New c u threadId source w w' new) (hk : w.Keyed) (hm : Mirror u existing w)
    (hrs : rs.map Prod.fst = rivals c existing) (hw : Wrote u (retireAll new.id rs ((w.mem u).set new.id new)) w w')
    (k : String) :
    (k = new.id ∧ (w.mem u).get k = none ∧ (w'.mem u).get k = some new) ∨
    (∃ m ∈ rivals c existing, m.id = k ∧ (w.mem u).get k = some m ∧ ∃ t, (w'.mem u).get k = some (retired m new.id t)) ∨
    (k ≠ new.id ∧ k ∉ (rivals c existing).map (·.id) ∧ (w'.mem u).get k = (w.mem u).get k) := by
  rw [hw.mem]
  by_cases hid : k = new.id
  · subst hid
    exact .inl ⟨rfl, hnew.get_none hk, get_added_new hnew hk hm hrs⟩
  · by_cases hriv : k ∈ (rivals c existing).map (·.id)
    · obtain ⟨m, hmem, rfl⟩ := List.mem_map.1 hriv
      exact .inr (.inl ⟨m, hmem, rfl, hm.stored m (rivals_subset hmem).1, get_added_rival new hm hrs hmem⟩)
    · exact .inr (.inr ⟨hid, hriv, get_added_other hrs hid (fun m hmem he => hriv (List.mem_map.2 ⟨m, hmem, he⟩))⟩)

omit [Host] in
theorem mem_ids_added {ks : List String} {k : String} :
    k ∈ (existing.filter (fun m => m.id ∉ ks) ++ [new]).map (·.id) ↔
      (k ∈ existing.map (·.id) ∧ k ∉ ks) ∨ k = new.id := by
  rw [List.map_append, List.mem_append, List.map_singleton, List.mem_singleton]
  refine or_congr_left ?_
  rw [mem_ids_filter (p := fun id => id ∉ ks), decide_eq_true_eq]

end Added

section Step
variable {c : CandidateFact} {u : String} {threadId : Option String} {source : Provenance}
  {existing existing' : List Memory} {w w' : World} {decision : MemoryDecision} {memory : Option Memory}

theorem Resolved.fate (h : Resolved c u threadId source existing w (.ok (decision, memory, existing'), w'))
    (hk : w.Keyed) (hm : Mirror u existing w) (k : String) :
    Fate c u threadId source existing w w' ((w.mem u).get k) ((w'.mem u).get k) := by
  cases h with
  | @reinforced _ m t _ hmem _ hw =>
    rw [hw.mem]
    by_cases hid : k = m.id
    · rw [hid, hm.stored m hmem, Dict.get_set_self]
      exact .reinforced m t hmem
    · rw [Dict.get_set_of_ne _ _ hid]
      exact .same _
  | @added _ new rs _ hnew hrs _ hw =>
    rcases added_cases hnew hk hm hrs hw k with ⟨rfl, hnone, hget⟩ | ⟨m, hmem, rfl, hget, t, hget'⟩ | ⟨-, -, hsame⟩
    · rw [hnone, hget]
      exact .new new hnew
    · rw [hget, hget']
      exact .retired m new.id t hmem
    · rw [hsame]
      exact .same _

theorem Resolved.store_of_ne (h : Resolved c u threadId source existing w (.ok (decision, memory, existing'), w'))
    {ns : Namespace} (hns : ns ≠ .memories u) : w'.store ns = w.store ns := by
  cases h with
  | reinforced _ _ _ hw => exact hw.store_of_ne hns
  | added _ _ _ _ hw => exact hw.store_of_ne hns

theorem Resolved.checkpoints (h : Resolved c u threadId source existing w (.ok (decision, memory, existing'), w')) :
    w'.checkpoints = w.checkpoints := by
  cases h with
  | reinforced _ _ _ hw => exact hw.checkpoints
  | added _ _ _ _ hw => exact hw.checkpoints

theorem Resolved.keyed (h : Resolved c u threadId source existing w (.ok (decision, memory, existing'), w'))
    (hk : w.Keyed) (hm : Mirror u existing w) (ha : w.After w') : w'.Keyed := by
  have key : ∀ {v k m}, (w'.mem v).get k = some m → m.id = k ∧ m.userId = v ∧ k ∈ w'.issued := by
    intro v k m hget
    by_cases hv : v = u
    · subst hv
      have hfate := h.fate hk hm k
      rw [hget] at hfate
      generalize ho : (w.mem v).get k = o at hfate
      cases hfate with
      | same => exact ⟨hk.id_eq ho, hk.user_eq ho, ha.issued (hk.issued ho)⟩
      | reinforced m t _ => exact ⟨hk.id_eq (m := m) ho, hk.user_eq (m := m) ho, ha.issued (hk.issued ho)⟩
      | retired m id t _ => exact ⟨hk.id_eq (m := m) ho, hk.user_eq (m := m) ho, ha.issued (hk.issued ho)⟩
      | new m hnew =>
        have hid : m.id = k := by
          cases h with
          | reinforced _ hmem _ hw =>
            rw [hw.mem, Dict.get_set] at hget
            split at hget
            · next hid => cases hget; exact hid.symm
            · rw [ho] at hget; cases hget
          | @added _ new rs _ hnew' hrs _ hw =>
            rcases added_cases hnew' hk hm hrs hw k with ⟨rfl, -, hget'⟩ | ⟨r, -, -, ho', -⟩ | ⟨-, -, hsame⟩
            · rw [hget'] at hget
              cases hget
              rfl
            · cases ho.symm.trans ho'
            · rw [hsame, ho] at hget
              cases hget
        exact ⟨hid, hnew.userId, hid ▸ hnew.id_issued⟩
    · have hns : (Namespace.memories v) ≠ .memories u := fun he => hv (by cases he; rfl)
      have hsame : w'.mem v = w.mem v := h.store_of_ne hns
      rw [hsame] at hget
      exact ⟨hk.id_eq hget, hk.user_eq hget, ha.issued (hk.issued hget)⟩
  exact ⟨fun h => (key h).1, fun h => (key h).2.1, fun h => (key h).2.2⟩

/-- The working list after a candidate, with the record it added. -/
theorem Resolved.mirror (h : Resolved c u threadId source existing w (.ok (decision, memory, existing'), w'))
    (hk : w.Keyed) (hm : Mirror u existing w) : Mirror u (existing' ++ memory.toList) w' := by
  cases h with
  | @reinforced _ m t _ hmem _ hw =>
    rw [Option.toList_none, List.append_nil]
    have hid : (MemoryManager.reinforced m t).id ∈ existing.map (·.id) := List.mem_map.2 ⟨m, hmem, rfl⟩
    refine ⟨by rw [map_id_replace hm.nodup]; exact hm.nodup, fun n hn => ?_, fun n hn => ?_⟩
    · rw [hw.mem]
      rcases (mem_replace hm.nodup hid).1 hn with rfl | ⟨hn, hne⟩
      · exact Dict.get_set_self _ _ _
      · exact (Dict.get_set_of_ne _ _ hne).trans (hm.stored n hn)
    · rcases (mem_replace hm.nodup hid).1 hn with rfl | ⟨hn, -⟩
      · exact hm.live m hmem
      · exact hm.live n hn
  | @added _ new rs _ hnew hrs _ hw =>
    have hsplit : ∀ n ∈ existing.filter (fun m => m.id ∉ (rivals c existing).map (·.id)) ++ [new],
        n = new ∨ (n ∈ existing ∧ ∀ m ∈ rivals c existing, m.id ≠ n.id) := by
      intro n hn
      rcases List.mem_append.1 hn with hn | hn
      · obtain ⟨hn, hne⟩ := List.mem_filter.1 hn
        refine .inr ⟨hn, fun m hm he => ?_⟩
        exact of_decide_eq_true hne (List.mem_map.2 ⟨m, hm, he⟩)
      · exact .inl (List.mem_singleton.1 hn)
    refine ⟨?_, fun n hn => ?_, fun n hn => ?_⟩
    · exact nodup_ids_append (hm.nodup.sublist (List.filter_sublist.map _))
        (fun n hn => hnew.ne_existing hk hm (List.mem_filter.1 hn).1)
    · rw [hw.mem]
      rcases hsplit n hn with rfl | ⟨hn, hne⟩
      · exact get_added_new hnew hk hm hrs
      · exact (get_added_other hrs (hnew.ne_existing hk hm hn) hne).trans (hm.stored n hn)
    · rcases hsplit n hn with rfl | ⟨hn, -⟩
      · exact hnew.supersededBy
      · exact hm.live n hn

end Step

/-! ## All candidates -/

/-- An invariant that every candidate keeps holds when the turn ends, be it
with its report or with an expiry past the calendar. -/
theorem resolveAll_inv (S : Services) (mm : MemoryManager) (u : String) (threadId : Option String)
    (source : Provenance)
    (I : List CandidateFact → World → List Memory → WriteReport → Prop) {all : List CandidateFact}
    (hstep : ∀ done c rest w w' existing report decision memory existing', all = done ++ c :: rest →
      w.Fed → w.Keyed → Mirror u existing w → w.After w' → I done w existing report →
      Resolved c u threadId source existing w (.ok (decision, memory, existing'), w') →
      I (done ++ [c]) w' (existing' ++ memory.toList)
        ⟨report.written ++ memory.toList, report.decisions ++ [decision]⟩)
    {done todo : List CandidateFact} {w : World} {existing : List Memory} {report : WriteReport}
    (hall : all = done ++ todo) (hw : w.Fed) (hk : w.Keyed) (hm : Mirror u existing w)
    (hI : I done w existing report) :
    ∃ done' w₁ existing₁ report₁, I done' w₁ existing₁ report₁ ∧ w₁.Fed ∧ w₁.Keyed ∧ Mirror u existing₁ w₁ ∧
      w.After w₁ ∧
      ((done' = all ∧ exec S (resolveAll mm u threadId source todo existing report) w = (.ok report₁, w₁)) ∨
        ∃ c ∈ todo, ∃ d n w', c.ttlDays = some d ∧ addDays (w.clock n) d = none ∧ SameData w₁ w' ∧ w₁.After w' ∧
          exec S (resolveAll mm u threadId source todo existing report) w = (.error .overflow, w')) := by
  induction todo generalizing done w existing report with
  | nil => exact ⟨done, w, existing, report, hI, hw, hk, hm, .refl w, .inl ⟨by simpa using hall.symm, rfl⟩⟩
  | cons c rest ih =>
    -- The first candidate whose expiry overflows ends the turn.
    have hspec := resolve_spec S mm c threadId source hw (hm.userId hk)
    rcases hr : exec S (resolve mm c existing u threadId source) w with ⟨e | ⟨decision, memory, existing'⟩, w'⟩
    · have ha : w.After w' := After.of_exec hr
      rw [hr] at hspec
      cases hspec with
      | overflow hd hn hs =>
        refine ⟨done, w, existing, report, hI, hw, hk, hm, .refl w, .inr ?_⟩
        exact ⟨c, List.mem_cons_self, _, _, w', hd, hn, hs, ha, by rw [resolveAll, exec_bind_of_error S w hr]⟩
    · have ha : w.After w' := After.of_exec hr
      rw [hr] at hspec
      have hI' := hstep done c rest w w' existing report decision memory existing' hall hw hk hm ha hI hspec
      obtain ⟨done', w₁, existing₁, report₁, hI₁, hw₁, hk₁, hm₁, ha₁, hend⟩ :=
        ih (show all = (done ++ [c]) ++ rest by simpa using hall) (Fed.of_exec hw hr) (hspec.keyed hk hm ha)
          (hspec.mirror hk hm) hI'
      have hrun : ∀ r, exec S (resolveAll mm u threadId source rest (existing' ++ memory.toList)
          ⟨report.written ++ memory.toList, report.decisions ++ [decision]⟩) w' = r →
          exec S (resolveAll mm u threadId source (c :: rest) existing report) w = r := by
        intro r h
        rw [resolveAll, exec_bind_of_ok S w hr]
        exact h
      refine ⟨done', w₁, existing₁, report₁, hI₁, hw₁, hk₁, hm₁, ha.trans ha₁, ?_⟩
      rcases hend with ⟨hdone, h⟩ | ⟨c', hc', d, n, w'', hd, hn, hs, ha', h⟩
      · exact .inl ⟨hdone, hrun _ h⟩
      · obtain ⟨k, hk'⟩ := ha.clock n
        exact .inr ⟨c', List.mem_cons_of_mem _ hc', d, k, w'', hd, hk' ▸ hn, hs, ha', hrun _ h⟩

/-! ## Apply -/

/-- The records a turn looks at, before those that are not active are dropped. -/
def window (S : Services) (u : String) (w : World) : List Memory :=
  ((S.walk (.memories u) (w.mem u)).map Prod.snd).take maxExisting

theorem mem_window {S : Services} {u : String} {w : World} {m : Memory} (h : m ∈ window S u w) :
    ∃ k, (w.mem u).get k = some m := by
  obtain ⟨e, he, rfl⟩ := List.mem_map.1 (List.mem_of_mem_take h)
  exact ⟨e.1, Dict.get_eq_some_iff.2 ((S.walk_perm _ _).mem_iff.1 he)⟩

/-- A namespace of at most 500 records is seen whole. -/
theorem mem_window_of_small {S : Services} {u : String} {w : World} (hsmall : (w.mem u).size ≤ maxExisting)
    {k : String} {m : Memory} (h : (w.mem u).get k = some m) : m ∈ window S u w := by
  have hperm := S.walk_perm (.memories u) (w.mem u)
  unfold window
  rw [List.take_of_length_le]
  · exact List.mem_map.2 ⟨(k, m), hperm.mem_iff.2 (Dict.get_eq_some_iff.1 h), rfl⟩
  · rw [List.length_map, hperm.length_eq]
    exact hsmall

theorem window_ids_nodup (S : Services) (u : String) {w : World} (hk : w.Keyed) :
    ((window S u w).map (·.id)).Nodup := by
  have hperm := S.walk_perm (.memories u) (w.mem u)
  have hids : ((S.walk (.memories u) (w.mem u)).map Prod.snd).map (·.id) =
      (S.walk (.memories u) (w.mem u)).map Prod.fst := by
    rw [List.map_map]
    refine List.map_congr_left (fun e he => ?_)
    exact hk.id_eq (Dict.get_eq_some_iff.2 (hperm.mem_iff.1 he))
  unfold window
  rw [List.map_take, hids]
  exact ((hperm.map Prod.fst).nodup_iff.2 (w.mem u).nodup).sublist (List.take_sublist _ _)

/-- The records `apply` starts from: of those it looks at, the active ones. -/
structure Snapshot (S : Services) (u : String) (w : World) (existing : List Memory) (w' : World) : Prop where
  same : SameData w w'
  mirror : Mirror u existing w'
  seen : existing.Sublist (window S u w)
  active : ∀ m ∈ existing, m.isActive (w.clock 0)
  kept : ∀ m ∈ window S u w, m.isActive w'.now → m ∈ existing

theorem exec_activeMemories (S : Services) (u : String) {w : World} (hw : w.Fed) (hk : w.Keyed) :
    ∃ existing w', exec S (activeMemories u) w = (.ok existing, w') ∧ Snapshot S u w existing w' := by
  have hitems : ((((S.search (.memories u) (w.mem u) none).drop 0).take maxExisting).map (·.value)) = window S u w := by
    simp only [Components.search, window, List.drop_zero, ← List.map_take, List.map_map]
    rfl
  obtain ⟨existing, w', h, hsame, hsub, hact, hkept⟩ := exec_activeOnly S (window S u w) hw
  refine ⟨existing, w', ?_, hsame, ⟨?_, ?_, ?_⟩, hsub, hact, hkept⟩
  · rw [activeMemories, exec_searchMemories, hitems]
    exact h
  · exact (window_ids_nodup S u hk).sublist (hsub.map _)
  · intro m hm
    obtain ⟨k, hget⟩ := mem_window (hsub.subset hm)
    rw [hsame.mem, hk.id_eq hget]
    exact hget
  · intro m hm
    exact (Memory.isActive_iff.1 (hact m hm)).1

/-- What `apply` can do. -/
inductive Applied (S : Services) (mm : MemoryManager) (u text : String) (threadId : Option String)
    (source : Provenance) (w : World) : Except Error WriteReport × World → Prop
  | blank (h : strip text = "") : Applied S mm u text threadId source w (.ok .empty, w)
  | blocked (h : strip text ≠ "") (hg : (mm.gate.inspect (strip text) source).allowed = false) (value : Quarantined) :
      Applied S mm u text threadId source w
        (.ok ⟨[], [⟨.quarantine, strip text, none, [], (mm.gate.inspect (strip text) source).reason⟩]⟩,
          w.tick.tick.put (.quarantine u) (InjectionGate.quarantineKey (w.clock 0) (strip text)) value)
  | idle (h : strip text ≠ "") (hg : (mm.gate.inspect (strip text) source).allowed = true)
      (hc : usable (S.extract (strip text)) (strip text) = []) :
      Applied S mm u text threadId source w (.ok .empty, w)
  | resolved (h : strip text ≠ "") (hg : (mm.gate.inspect (strip text) source).allowed = true)
      (hc : usable (S.extract (strip text)) (strip text) ≠ []) {existing : List Memory} {w₁ : World}
      (hs : Snapshot S u w existing w₁) (hw₁ : w₁.Fed) (ha : w.After w₁) :
      Applied S mm u text threadId source w
        (exec S (resolveAll mm u threadId source (usable (S.extract (strip text)) (strip text)) existing .empty) w₁)

theorem apply_cases (S : Services) (mm : MemoryManager) (u text : String) (threadId : Option String)
    (source : Provenance) {w : World} (hw : w.Fed) (hk : w.Keyed) :
    Applied S mm u text threadId source w (exec S (mm.apply u text threadId source) w) := by
  unfold apply
  split
  · next h => exact .blank h
  · next h =>
    split
    · next hg => exact .blocked h (eq_false_of_ne_true hg) ⟨_, _, _, _, _, _, _⟩
    · next hg =>
      have hg := not_not.1 hg
      rw [exec_extract]
      split
      · next hc => exact .idle h hg hc
      · next hc =>
        obtain ⟨existing, w₁, hrun, hs⟩ := exec_activeMemories S u hw hk
        rw [exec_bind_of_ok S w hrun]
        exact .resolved h hg hc hs (Fed.of_exec hw hrun) (After.of_exec hrun)

/-- `observe` with a manager is `apply`. -/
theorem perform_observe (S : Services) (reader : MemoryReader) (mm : MemoryManager) (memory : Bool) (u text : String)
    (threadId : Option String) (source : Provenance) (w : World) :
    Agent.perform ⟨reader, .manager mm, memory⟩ S (.observe u text threadId source) w =
      ((exec S (mm.apply u text threadId source) w).1.map .observed,
        (exec S (mm.apply u text threadId source) w).2) :=
  exec_map S w _ _

end Engram
