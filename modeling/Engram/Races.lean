import Engram.Tallies
/-!
# Two turns at once

A turn accounts for all it does (`guide_apply`), so two of them keep the store
tidy, if their puts are orderly (`overlap_oneLive`). On plain runs they do not
(`overlap_twoLive`).
-/

namespace Engram

open Interleave MemoryManager Backend Text

variable [Host]

/-! ## What a side does with its tally -/

/-- The working list of a side, and its tally: what it holds is on the list or
has expired, and on the list are its own live records. -/
structure Holds (u : String) (t : Tally) (pending : List String) (existing : List Memory) : Prop where
  pending : t.pending = pending
  nodup : (existing.map (·.id)).Nodup
  mine : ∀ m ∈ existing, m.userId = u ∧ m.supersededBy = none ∧ m.mark ∈ t.held
  seen : ∀ x ∈ t.held, (∃ m ∈ existing, m.mark = x) ∨ x.Expired t.now

abbrev Guide {α : Type} (u : String) (Q : Tally → α → Prop) (t : Tally) (p : Act α) : Prop :=
  p.Guided (Tally.Makes u) (Tally.Answers u) Tally.Notes (fun t => t.pending = []) Q t

/-- Calls that leave the tally as it is. -/
def Beside : Call → Prop
  | .search (.memories _) none _ _ | .put (.memories _) _ _ | .delete _ _ => False
  | _ => True

namespace Holds
variable {u : String} {t : Tally} {pending : List String} {existing : List Memory} {m : Memory} {c : CandidateFact}

omit [Host] in
theorem replace (h : Holds u t pending existing) (hm : m ∈ existing) (now : Time) :
    Holds u t pending (MemoryManager.replace (reinforced m now) existing) := by
  have hin : (reinforced m now).id ∈ existing.map (·.id) := List.mem_map.2 ⟨m, hm, rfl⟩
  refine ⟨h.pending, ?_, fun n hn => ?_, fun x hx => ?_⟩
  · rw [map_id_replace h.nodup]
    exact h.nodup
  · rcases (mem_replace h.nodup hin).1 hn with rfl | ⟨hn, -⟩
    · exact h.mine m hm
    · exact h.mine n hn
  · refine (h.seen x hx).imp_left ?_
    rintro ⟨n, hn, rfl⟩
    by_cases hid : n.id = m.id
    · obtain rfl := List.inj_on_of_nodup_map h.nodup hn hm hid
      exact ⟨reinforced n now, (mem_replace h.nodup hin).2 (.inl rfl), rfl⟩
    · exact ⟨n, (mem_replace h.nodup hin).2 (.inr ⟨hn, hid⟩), rfl⟩

omit [Host] in
theorem retire (h : Holds u t pending existing) (k : String) :
    Holds u { t with held := t.held.filter (·.id ≠ k), pending := t.pending.filter (· ≠ k) } (pending.filter (· ≠ k))
      (existing.filter (fun m => m.id ≠ k)) := by
  refine ⟨?_, ?_, fun n hn => ?_, fun x hx => ?_⟩
  · show t.pending.filter (· ≠ k) = _
    rw [h.pending]
  · exact h.nodup.sublist (List.filter_sublist.map _)
  · obtain ⟨hn, hne⟩ := List.mem_filter.1 hn
    obtain ⟨huser, hlive, hheld⟩ := h.mine n hn
    exact ⟨huser, hlive, List.mem_filter.2 ⟨hheld, hne⟩⟩
  · obtain ⟨hx, hne⟩ := List.mem_filter.1 hx
    refine (h.seen x hx).imp_left ?_
    rintro ⟨n, hn, rfl⟩
    exact ⟨n, List.mem_filter.2 ⟨hn, hne⟩, rfl⟩

omit [Host] in
theorem add (h : Holds u t [] existing) (huser : m.userId = u) (hlive : m.supersededBy = none)
    (hid : m.id ∉ t.held.map (·.id)) (pending : List String) :
    Holds u ⟨t.held ++ [m.mark], pending, none, t.now⟩ pending (existing ++ [m]) := by
  refine ⟨rfl, ?_, fun n hn => ?_, fun x hx => ?_⟩
  · rw [List.map_append, List.nodup_append]
    refine ⟨h.nodup, List.nodup_singleton _, fun a ha b hb hab => ?_⟩
    obtain ⟨n, hn, rfl⟩ := List.mem_map.1 ha
    obtain rfl := List.mem_singleton.1 hb
    exact hid (List.mem_map.2 ⟨n.mark, (h.mine n hn).2.2, hab⟩)
  · rcases List.mem_append.1 hn with hn | hn
    · obtain ⟨huser, hlive, hheld⟩ := h.mine n hn
      exact ⟨huser, hlive, List.mem_append_left _ hheld⟩
    · obtain rfl := List.mem_singleton.1 hn
      exact ⟨huser, hlive, List.mem_append_right _ (List.mem_singleton.2 rfl)⟩
  · rcases List.mem_append.1 hx with hx | hx
    · refine (h.seen x hx).imp_left ?_
      rintro ⟨n, hn, rfl⟩
      exact ⟨n, List.mem_append_left _ hn, rfl⟩
    · obtain rfl := List.mem_singleton.1 hx
      exact .inl ⟨m, List.mem_append_right _ (List.mem_singleton.2 rfl), rfl⟩

end Holds

section Guides
variable {u : String} {t : Tally} {pending : List String} {existing : List Memory} {m : Memory} {c : CandidateFact}
  {threadId : Option String} {source : Provenance}

/-- A part of a turn that only looks. -/
theorem guide_beside {α : Type} {Q : α → Prop} {p : Act α} (hp : p.Only (fun _ _ => True) Beside Q)
    (ht : t.pending = []) : Guide u (fun t' a => t' = t ∧ Q a) t p := by
  refine .of_only hp (fun i hi => ?_) ht
  cases i with
  | search ns q =>
    cases ns with
    | memories v =>
      cases q with
      | none => cases hi
      | some q => exact ⟨trivial, fun _ _ => ⟨trivial, rfl⟩⟩
    | _ => exact ⟨trivial, fun _ _ => ⟨trivial, rfl⟩⟩
  | put ns =>
    cases ns with
    | memories v => cases hi
    | _ => exact ⟨trivial, fun _ _ => ⟨trivial, rfl⟩⟩
  | utcnow | uuid4 => exact ⟨trivial, fun _ _ => ⟨trivial, .inl rfl⟩⟩
  | delete => cases hi
  | _ => exact ⟨trivial, fun _ _ => ⟨trivial, rfl⟩⟩

theorem guide_isActiveNow (m : Memory) : Guide u (fun t' active => ∃ T, t.now ≤ T ∧ t' = { t with now := T } ∧
    (active = true → m.supersededBy = none) ∧ (m.supersededBy = none → active = true ∨ m.mark.Expired T)) t
    (isActiveNow m none) := by
  unfold isActiveNow
  split
  · next hsup =>
    refine .pure ⟨t.now, le_refl _, rfl, fun h => (by cases h), fun h => ?_⟩
    rw [h] at hsup
    cases hsup
  · next hsup =>
    have hlive : m.supersededBy = none := by simpa using hsup
    split
    · exact .pure ⟨t.now, le_refl _, rfl, fun _ => hlive, fun _ => .inl rfl⟩
    · next e he =>
      refine .call trivial (fun o ho => ⟨{ t with now := o }, .inr rfl, .ret ⟨o, ho, rfl, fun _ => hlive, fun _ => ?_⟩⟩)
      by_cases hlt : o < e
      · exact .inl (decide_eq_true hlt)
      · exact .inr ⟨e, he, not_lt.1 hlt⟩

/-- What is left out has expired. -/
theorem guide_activeOnly (ms : List Memory) : Guide u (fun t' ms' => ∃ T, t.now ≤ T ∧ t' = { t with now := T } ∧
    ms'.Sublist ms ∧ (∀ m ∈ ms', m.supersededBy = none) ∧
    ∀ m ∈ ms, m.supersededBy = none → m ∈ ms' ∨ m.mark.Expired T) t (activeOnly ms) := by
  induction ms generalizing t with
  | nil => exact .pure ⟨t.now, le_refl _, rfl, .slnil, by simp, by simp⟩
  | cons m ms ih =>
    refine .seq (guide_isActiveNow m) ?_
    rintro _ active ⟨T, hT, rfl, hact, hkept⟩
    refine .seq ih ?_
    rintro _ rest ⟨T', hT', rfl, hsub, hlive, hseen⟩
    -- What had expired at `T` has at `T'`, which is read later.
    refine .pure ⟨T', hT.trans hT', rfl, ?_, fun n hn => ?_, fun n hn hnlive => ?_⟩
    · cases active with
      | true => exact hsub.cons_cons m
      | false => exact hsub.cons m
    · cases active with
      | true =>
        rcases List.mem_cons.1 hn with rfl | hn
        · exact hact rfl
        · exact hlive n hn
      | false => exact hlive n hn
    · rcases List.mem_cons.1 hn with rfl | hn
      · rcases hkept hnlive with rfl | ⟨e, he, hle⟩
        · exact .inl List.mem_cons_self
        · exact .inr ⟨e, he, hle.trans hT'⟩
      · refine (hseen n hn hnlive).imp_left (fun hmem => ?_)
        cases active with
        | true => exact List.mem_cons_of_mem _ hmem
        | false => exact hmem

theorem guide_reinforce (h : Holds u t [] existing) (hm : m ∈ existing) :
    Guide u (fun t' ex => Holds u t' [] ex) t (reinforce m existing) := by
  obtain ⟨rfl, hlive, hheld⟩ := h.mine m hm
  refine .call trivial (fun o _ => ⟨t, .inl rfl, ?_⟩)
  refine .call ⟨rfl, rfl, rfl, .inl hheld⟩ (fun _ _ => ⟨t, .inl ?_, .ret (h.replace hm o)⟩)
  exact ⟨hheld, rfl, rfl, fun _ => id, fun _ _ => id, fun _ _ => id⟩

theorem guide_build (ht : t.pending = []) : Guide u (fun t' m => t' = { t with fresh := some m.id } ∧
    m.id ∉ t.held.map (·.id) ∧ m.userId = u ∧ m.supersededBy = none ∧ m.slot = c.slot) t
      (build c u threadId source) := by
  refine .seq (guide_beside (only_expiry trivial c.ttlDays) ht) ?_
  rintro t' expiresAt ⟨ht', -⟩
  rw [ht']
  refine .call trivial (fun id hid => ⟨{ t with fresh := some id }, .inr rfl, ?_⟩)
  refine .call trivial (fun _ _ => ⟨_, .inl rfl, .call trivial (fun _ _ => ⟨_, .inl rfl, ?_⟩)⟩)
  exact .ret ⟨rfl, hid, rfl, rfl, rfl⟩

/-- A built record is put, and all that is held of its slot is now to be retired. -/
theorem guide_add {α : Type} {Q : Tally → α → Prop} {f : Unit → Act α} (stale : List Memory) (h : Holds u t [] existing)
    (hid : m.id ∉ t.held.map (·.id)) (huser : m.userId = u) (hlive : m.supersededBy = none)
    (hstale : m.attr ≠ "" → ∀ n ∈ existing, n.slot = m.slot → n ∈ stale)
    (hf : ∀ t', Holds u t' (stale.map (·.id)) (existing ++ [m]) → Guide u Q t' (f ())) :
    Guide u Q { t with fresh := some m.id } (storePut m.namespace m.id m >>= f) := by
  subst huser
  refine .call ⟨rfl, rfl, rfl, .inr ⟨hlive, rfl⟩⟩
    (fun _ _ => ⟨⟨t.held ++ [m.mark], stale.map (·.id), none, t.now⟩, .inr ?_, ?_⟩)
  · refine ⟨hlive, rfl, h.pending, rfl, fun hattr x hx hslot => ?_, rfl, rfl⟩
    refine (h.seen x hx).imp_left ?_
    rintro ⟨n, hn, rfl⟩
    exact List.mem_map.2 ⟨n, hstale hattr n hn hslot, rfl⟩
  · exact hf _ (h.add rfl hlive hid _)

/-- One by one, the records to retire go off the tally. -/
theorem guide_supersedeAll {new : Memory} {stale : List Memory} (hnd : (stale.map (·.id)).Nodup)
    (hstale : ∀ m ∈ stale, m ∈ existing) (h : Holds u t (stale.map (·.id)) (existing ++ [new])) :
    Guide u (fun t' ex => Holds u t' [] (ex ++ [new])) t (supersedeAll new.id stale existing) := by
  induction stale generalizing existing t with
  | nil => exact .ret h
  | cons m stale ih =>
    obtain ⟨hm, hnd⟩ := List.nodup_cons.1 hnd
    have hmem : m ∈ existing := hstale m List.mem_cons_self
    obtain ⟨rfl, hlive, hheld⟩ := h.mine m (List.mem_append_left _ hmem)
    have hne : new.id ≠ m.id := by
      intro he
      have hdisj := (List.nodup_append.1 (List.map_append ▸ h.nodup)).2.2
      exact hdisj m.id (List.mem_map_of_mem hmem) new.id (by simp) he.symm
    have hids : (m.id :: stale.map (·.id)).filter (· ≠ m.id) = stale.map (·.id) := by
      rw [List.filter_cons_of_neg (by simp), List.filter_eq_self]
      intro k hk
      refine decide_eq_true ?_
      rintro rfl
      exact hm hk
    have hlist : (existing ++ [new]).filter (fun n => n.id ≠ m.id) =
        existing.filter (fun n => n.id ≠ m.id) ++ [new] := by
      rw [List.filter_append, List.filter_cons_of_pos (by simpa using hne), List.filter_nil]
    have hnext := h.retire m.id
    rw [List.map_cons, hids, hlist] at hnext
    refine .call trivial (fun o _ => ⟨t, .inl rfl, ?_⟩)
    refine .call ⟨rfl, rfl, rfl, .inl hheld⟩
      (fun _ _ => ⟨_, .inl (Tally.rewrites_retired hheld (by simp [retired])), ?_⟩)
    -- The next ones are still on the list: their ids differ from this one's.
    refine ih hnd (fun n hn => ?_) hnext
    refine List.mem_filter.2 ⟨hstale n (List.mem_cons_of_mem _ hn), decide_eq_true (fun he => hm ?_)⟩
    exact List.mem_map.2 ⟨n, hn, he⟩

theorem guide_resolve (mm : MemoryManager) (c : CandidateFact) (h : Holds u t [] existing) :
    Guide u (fun t' r => Holds u t' [] (r.2.2 ++ r.2.1.toList)) t (mm.resolve c existing u threadId source) := by
  have hnew : (c.attr ≠ "" → sameSlot c existing = []) →
      Guide u (fun t' r => Holds u t' [] (r.2.2 ++ r.2.1.toList)) t (writeNew c existing u threadId source) := by
    intro hnone
    refine .seq (guide_build (c := c) h.pending) ?_
    rintro t' m ⟨ht', hid, huser, hlive, hslot⟩
    rw [ht']
    refine guide_add [] h hid huser hlive (fun hattr n hn hns => ?_) (fun t' ht' => .pure ht')
    have hattr' : c.attr ≠ "" := by
      rwa [show c.attr = m.attr from (congrArg Prod.fst hslot).symm]
    exact hnone hattr' ▸ mem_sameSlot.2 ⟨hn, hns.trans hslot⟩
  unfold resolve
  split
  · next hattr =>
    split
    · next m hdup =>
      have hm := (List.mem_filter.1 (List.mem_of_find?_eq_some hdup)).1
      refine .seq (guide_reinforce h hm) (fun t' ex hex => .pure ?_)
      rwa [Option.toList_none, List.append_nil]
    · split
      · refine .seq (guide_build (c := c) h.pending) ?_
        rintro t' m ⟨ht', hid, huser, hlive, hslot⟩
        rw [ht']
        refine guide_add (sameSlot c existing) h hid huser hlive
          (fun _ n hn hns => mem_sameSlot.2 ⟨hn, hns.trans hslot⟩) ?_
        intro t' ht'
        have hnd : ((sameSlot c existing).map (·.id)).Nodup := h.nodup.sublist (List.filter_sublist.map _)
        exact .seq (guide_supersedeAll hnd (fun n hn => (mem_sameSlot.1 hn).1) ht') (fun t' ex hex => .pure hex)
      · next hslot => exact hnew (fun _ => not_not.1 hslot)
  · next hattr =>
    refine .seq (guide_beside (only_nearest (fun _ => trivial) (fun _ _ _ _ => trivial) mm c.text) h.pending) ?_
    rintro t' near ⟨ht', hnear⟩
    rw [ht']
    cases near with
    | none => exact hnew (fun ha => absurd ha hattr)
    | some m =>
      refine .seq (guide_reinforce h (hnear m rfl)) (fun t' ex hex => .pure ?_)
      rwa [Option.toList_none, List.append_nil]

theorem guide_resolveAll (mm : MemoryManager) (cs : List CandidateFact) {report : WriteReport}
    (h : Holds u t [] existing) :
    Guide u (fun t' _ => t'.pending = []) t (mm.resolveAll u threadId source cs existing report) := by
  induction cs generalizing existing report t with
  | nil => exact .pure h.pending
  | cons c cs ih => exact .seq (guide_resolve mm c h) (fun t' r hr => ih hr)

theorem guide_activeMemories (hheld : t.held = []) (ht : t.pending = []) :
    Guide u (fun t' existing => Holds u t' [] existing) t (activeMemories u) := by
  refine .call ⟨rfl, hheld⟩ (fun items hitems => ⟨_, rfl, ?_⟩)
  obtain ⟨hnd, hitems⟩ := hitems rfl
  have hids : (items.map (·.value)).map (·.id) = items.map (·.key) := by
    rw [List.map_map]
    exact List.map_congr_left (fun item hitem => (hitems item hitem).1)
  refine .mono (guide_activeOnly (items.map (·.value))) ?_
  rintro t' ms ⟨T, hT, rfl, hsub, hlive, hseen⟩
  refine ⟨ht, ?_, fun m hm => ?_, fun x hx => ?_⟩
  · refine List.Nodup.sublist (hsub.map _) ?_
    rw [hids]
    exact hnd
  · obtain ⟨item, hitem, rfl⟩ := List.mem_map.1 (hsub.subset hm)
    refine ⟨(hitems item hitem).2, hlive _ hm, List.mem_map.2 ⟨item, List.mem_filter.2 ⟨hitem, ?_⟩, rfl⟩⟩
    exact decide_eq_true (hlive _ hm)
  · obtain ⟨item, hitem, rfl⟩ := List.mem_map.1 hx
    obtain ⟨hitem, hl⟩ := List.mem_filter.1 hitem
    exact (hseen item.value (List.mem_map_of_mem hitem) (of_decide_eq_true hl)).imp_left (fun hmem => ⟨_, hmem, rfl⟩)

/-- A turn accounts for all it does. -/
theorem guide_apply (mm : MemoryManager) (text : String) :
    Guide u (fun t' _ => t'.pending = []) .start (mm.apply u text threadId source) := by
  unfold apply
  split
  · exact .pure rfl
  split
  · refine .seq (guide_beside (Q := fun _ => True) ?_ rfl) ?_
    · exact only_utcnow trivial (fun _ => only_utcnow trivial (fun _ => .call trivial (fun _ _ => .ret trivial)))
    · rintro t' - ⟨rfl, -⟩
      exact .pure rfl
  · refine .seq (guide_beside (Q := fun _ => True) (.call trivial (fun _ _ => .ret trivial)) rfl) ?_
    rintro t' candidates ⟨ht', -⟩
    rw [ht']
    split
    · exact .pure rfl
    · exact .seq (guide_activeMemories rfl rfl) (fun t' existing h => guide_resolveAll mm _ h)

theorem guide_observe (reader : MemoryReader) (mm : MemoryManager) (memory : Bool) (rounds : Nat) (text : String) :
    Guide u (fun t' _ => t'.pending = []) .start
      (Agent.act ⟨reader, .manager mm, memory⟩ rounds (.observe u text threadId source)) :=
  (guide_apply mm text).map Outcome.observed (fun _ _ ht => ht)

end Guides

/-! ## One live record -/

theorem tidy_start {u : String} {w : World} (hw : w.Fed) (hk : w.Keyed) (hone : w.OneLive u w.now) :
    Tidy u [] (fun _ => .start) w where
  fed := hw
  keyed _ _ hget := ⟨hk.id_eq hget, hk.user_eq hget, hk.issued hget⟩
  now _ := Nat.zero_le _
  fresh _ _ h := by cases h
  fresh_ne _ _ _ h := by cases h
  held _ _ h := by cases h
  known _ _ h := by
    obtain ⟨e, he, -⟩ := h
    cases he
  one k k' m m' hm hm' hattr hslot hact hact' _ _ := hone k k' m m' hm hm' hattr hslot hact hact'
  gone _ h := by cases h

section Orderly
variable {S : Side → Services} {reader : MemoryReader} {mm : MemoryManager} {memory : Bool} {rounds : Nat}
  {u text text' : String} {threadId threadId' : Option String} {source source' : Provenance} {w : World} {c : Overlap}

/-- Two turns of one user at once, whatever the order of their calls: if each
writes a live record only over one that is not superseded, and a new one only
where it has met all that is active in the slot, then at the end no slot has two
live records, and what was superseded on the way is not active. -/
theorem overlap_oneLive (hw : w.Fed) (hk : w.Keyed) (hone : w.OneLive u w.now)
    (hr : Overlaps S (Orderly u) (Agent.overlap ⟨reader, .manager mm, memory⟩ rounds (.observe u text threadId source)
      (.observe u text' threadId' source') w) c) (hfin : c.Finished) :
    c.state.OneLive u c.state.now ∧ ∀ e ∈ c.past, ∀ k m, (e.before.mem u).get k = some m → m.supersededBy ≠ none →
      ∀ m', (c.state.mem u).get k = some m' → ¬ m'.isActive c.state.now := by
  have hguide : ∀ a, Guide u (fun t _ => t.pending = []) .start ((Agent.overlap ⟨reader, .manager mm, memory⟩ rounds
      (.observe u text threadId source) (.observe u text' threadId' source') w).prog a) := by
    intro a
    cases a with
    | left => exact guide_observe reader mm memory rounds text
    | right => exact guide_observe reader mm memory rounds text'
  obtain ⟨g, htidy, hguided⟩ :=
    Reach.guided (J := Tidy u) (fun past g s a i h => h.step (S a) i) hr hguide (tidy_start hw hk hone)
  have hidle : ∀ a, (g a).pending = [] := by
    intro a
    have hcalls : (c.prog a).calls = false := by
      cases a with
      | left => exact hfin.1
      | right => exact hfin.2
    rcases (hguided a).ended hcalls with h | ⟨_, h⟩ <;> exact h
  refine ⟨fun k k' m m' hm hm' hattr hslot hact hact' => ?_, fun e he k m hm hsup m' hm' hact => ?_⟩
  · exact htidy.one k k' m m' hm hm' hattr hslot hact hact' (fun a => by simp [hidle]) (fun a => by simp [hidle])
  · obtain ⟨n, hn, hnsup⟩ := htidy.gone e he k m hm hsup
    rw [hm'] at hn
    cases hn
    exact hnsup (Memory.isActive_iff.1 hact).1

end Orderly

end Engram

/-! ## Two teams at once -/

namespace Engram

open Interleave Backend

theorem not_oneLive [Host] {w : World} {u : String} {t : Time}
    (h : ∃ e ∈ (w.mem u).entries, ∃ e' ∈ (w.mem u).entries,
      e.2.attr ≠ "" ∧ e.2.slot = e'.2.slot ∧ e.2.isActive t ∧ e'.2.isActive t ∧ e.1 ≠ e'.1) : ¬ w.OneLive u t := by
  obtain ⟨e, he, e', he', hattr, hslot, hact, hact', hne⟩ := h
  exact fun hone => hne (hone e.1 e'.1 e.2 e'.2 (Dict.get_eq_some_iff.2 he)
    (Dict.get_eq_some_iff.2 he') hattr hslot hact hact')

attribute [local instance] ascii

/-- On an empty backend. -/
def twoTeams : Overlap :=
  Agent.overlap ⟨⟨5⟩, .manager lenient, true⟩ 0 (.observe "alice" "payments" none .user)
    (.observe "alice" "platform" none .user) (Backend.empty.given (.at 1 'a'))

/-- Both list the empty store, then each writes. -/
def bothList : List Side := [.left, .left, .right, .right] ++ .replicate 4 .left ++ .replicate 4 .right

theorem overlap_twoLive : (twoTeams.state.mem "alice").size = 0 ∧
    ∃ c, Overlaps (fun _ => teamBackend) (fun _ _ _ _ => True) twoTeams c ∧ c.Finished ∧
      ¬ c.state.OneLive "alice" c.state.now :=
  ⟨rfl, play (fun _ => handle teamBackend) bothList twoTeams, reach_play (meets_true _ _),
    ⟨by decide +kernel, by decide +kernel⟩, not_oneLive (by decide +kernel)⟩

/-- One after the other: the second lists what the first wrote, and retires it. -/
theorem overlap_oneLive_apart : ∃ c, Overlaps (fun _ => teamBackend) (Orderly "alice") twoTeams c ∧
    (c.state.mem "alice").size = 2 ∧ c.state.OneLive "alice" c.state.now := by
  have hstart : (Backend.empty.given (.at 1 'a')).Fed := fed_given (Stamped.empty.valid (by decide) (by decide))
  have hr : Overlaps (fun _ => teamBackend) (Orderly "alice") twoTeams
      (play (fun _ => handle teamBackend) (.replicate 6 .left ++ .replicate 8 .right) twoTeams) :=
    reach_play (meets_iff.1 (by decide +kernel))
  refine ⟨_, hr, by decide +kernel, ?_⟩
  exact (overlap_oneLive hstart (keyed_empty.given _) (fun k _ m _ hm => by cases hm) hr
    ⟨by decide +kernel, by decide +kernel⟩).1

end Engram
