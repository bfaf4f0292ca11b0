import Engram.Chains
/-!
# The working list

`existing` changes in three places: `_replace` puts a reinforced record where
the old one was, `_supersede` drops a retired one, and `apply` appends a new
one. Each change goes with a put, and the three keep `Synced`. So whatever is
written back was read from the list as the store holds it.
-/

namespace Engram

open MemoryManager Backend Text

variable [Host]

/-! ## Agreement with the store -/

/-- The working list holds distinct records of `u` as they are stored: those
with `known` ids, less those with `gone` ids. -/
structure Synced (u : String) (known gone : List String) (existing : List Memory) (w : World) : Prop where
  nodup : (existing.map (·.id)).Nodup
  stored : ∀ m ∈ existing, (w.mem u).get m.id = some m
  userId : ∀ m ∈ existing, m.userId = u
  ids : ∀ id, id ∈ existing.map (·.id) ↔ id ∈ known ∧ id ∉ gone
  gone_issued : gone ⊆ w.issued
  keys_issued : (w.mem u).keys ⊆ w.issued
  fresh : w.Fresh

namespace Synced
variable {u : String} {known gone : List String} {existing : List Memory} {w w' : World}

theorem congr (h : Synced u known gone existing w) (hmem : w'.mem u = w.mem u) (hissued : w.issued ⊆ w'.issued)
    (hfresh : w'.Fresh) : Synced u known gone existing w' where
  nodup := h.nodup
  stored m hm := by
    rw [hmem]
    exact h.stored m hm
  userId := h.userId
  ids := h.ids
  gone_issued := List.Subset.trans h.gone_issued hissued
  keys_issued := by
    rw [hmem]
    exact List.Subset.trans h.keys_issued hissued
  fresh := hfresh

theorem aside (h : Synced u known gone existing w) (S : Services) {i : Call} (hi : Aside i) :
    Synced u known gone existing (handle S i w).2 :=
  h.congr (aside_handle S hi w u) (after_handle S i w).issued (fresh_handle S i h.fresh)

theorem mem_issued (h : Synced u known gone existing w) {m : Memory} (hm : m ∈ existing) : m.id ∈ w.issued :=
  h.keys_issued (Dict.mem_keys_iff.2 ⟨m, h.stored m hm⟩)

/-- A put of `x`, after which the list has `x`, if at all, and other records as before. -/
theorem put (h : Synced u known gone existing w) {x : Memory} (hx : x.id ∈ w.issued) (hu : x.userId = u)
    {known' gone' : List String} {existing' : List Memory} (hnodup : (existing'.map (·.id)).Nodup)
    (hmem : ∀ m ∈ existing', m = x ∨ (m ∈ existing ∧ m.id ≠ x.id))
    (hids : ∀ id, id ∈ existing'.map (·.id) ↔ id ∈ known' ∧ id ∉ gone') (hgone : gone' ⊆ w.issued) :
    Synced u known' gone' existing' (w.put (.memories u) x.id x) where
  nodup := hnodup
  stored m hm := by
    rw [mem_put_self]
    rcases hmem m hm with rfl | ⟨hm, hne⟩
    · exact Dict.get_set_self _ _ _
    · exact (Dict.get_set_of_ne _ _ hne).trans (h.stored m hm)
  userId m hm := by
    rcases hmem m hm with rfl | ⟨hm, -⟩
    · exact hu
    · exact h.userId m hm
  ids := hids
  gone_issued := hgone
  keys_issued := by
    intro k hk
    rw [mem_put_self, Dict.mem_keys_set] at hk
    rcases hk with rfl | hk
    · exact hx
    · exact h.keys_issued hk
  fresh := ⟨h.fresh.ids_inj, h.fresh.ids_new⟩

/-- `_replace`: the record with the id of `x` becomes `x`. -/
theorem replace (h : Synced u known gone existing w) {m x : Memory} (hm : m ∈ existing) (hid : x.id = m.id)
    (hu : x.userId = m.userId) :
    Synced u known gone (replace x existing) (w.put (.memories u) x.id x) := by
  have hmem : x.id ∈ existing.map (·.id) := List.mem_map.2 ⟨m, hm, hid.symm⟩
  refine h.put (hid ▸ h.mem_issued hm) (hu.trans (h.userId m hm)) ?_ (fun n hn => (mem_replace h.nodup hmem).1 hn) ?_
    h.gone_issued
  · rw [map_id_replace h.nodup]
    exact h.nodup
  · rw [map_id_replace h.nodup]
    exact h.ids

/-- `existing[:] = [m for m in existing if m.id != stale.id]`, where `x` was put in the place of the stale one. -/
theorem remove (h : Synced u known gone existing w) {m x : Memory} (hm : m ∈ existing) (hid : x.id = m.id)
    (hu : x.userId = m.userId) :
    Synced u known (gone ++ [m.id]) (existing.filter (fun n => n.id ≠ m.id)) (w.put (.memories u) x.id x) := by
  have hissued := h.mem_issued hm
  refine h.put (hid ▸ hissued) (hu.trans (h.userId m hm)) (h.nodup.sublist (List.filter_sublist.map _))
    (fun n hn => ?_) (fun id => ?_) ?_
  · obtain ⟨hn, hne⟩ := List.mem_filter.1 hn
    rw [hid]
    exact .inr ⟨hn, of_decide_eq_true hne⟩
  · rw [mem_ids_filter (p := fun id => id ≠ m.id), h.ids, decide_eq_true_eq, List.mem_append,
      List.mem_singleton, not_or, and_assoc]
  · exact List.append_subset.2 ⟨h.gone_issued, by simpa using hissued⟩

/-- `existing.append(x)`, where `x` was put under an id of its own. -/
theorem append (h : Synced u known gone existing w) {x : Memory} (hx : x.id ∈ w.issued) (hu : x.userId = u)
    (hnew : (w.mem u).get x.id = none) (hgone : x.id ∉ gone) :
    Synced u (known ++ [x.id]) gone (existing ++ [x]) (w.put (.memories u) x.id x) := by
  have hne : ∀ m ∈ existing, m.id ≠ x.id := by
    intro m hm he
    have hget := h.stored m hm
    rw [he, hnew] at hget
    cases hget
  refine h.put hx hu (nodup_ids_append h.nodup hne) (fun m hm => ?_) (fun id => ?_) h.gone_issued
  · rcases List.mem_append.1 hm with hm | hm
    · exact .inr ⟨hm, hne m hm⟩
    · exact .inl (List.mem_singleton.1 hm)
  · rw [List.map_append, List.mem_append, h.ids, List.mem_append, List.map_singleton, List.mem_singleton]
    constructor
    · rintro (⟨hk, hg⟩ | rfl)
      · exact ⟨.inl hk, hg⟩
      · exact ⟨.inr rfl, hgone⟩
    · rintro ⟨hk | rfl, hg⟩
      · exact .inl ⟨hk, hg⟩
      · exact .inr rfl

end Synced

/-! ## One candidate -/

/-- A record that is put is new under its key, or is the stored one, reinforced or retired. -/
def Based (w : World) : Call → Prop
  | .put (.memories u) key m => (w.mem u).get key = none ∨
      ∃ old, (w.mem u).get key = some old ∧ ((∃ t, m = reinforced old t) ∨ ∃ id t, m = retired old id t)
  | _ => True

theorem based_aside {i : Call} (hi : Aside i) (w : World) : Based w i := by
  cases i with
  | put ns =>
    cases ns with
    | memories => cases hi
    | _ => trivial
  | _ => trivial

section Candidate
variable {S : Services} {u : String} {known gone : List String} {existing : List Memory} {w : World}
  {threadId : Option String} {source : Provenance}

/-- A part that puts no record. -/
theorem Synced.along {α : Type} {R : α → Prop} {p : Act α} (h : Synced u known gone existing w)
    (hp : p.Only (fun _ _ => True) Aside R) :
    p.Along (handle S) Based (fun a w' => R a ∧ Synced u known gone existing w') w :=
  .of_only hp (fun _ w' hi h' => ⟨based_aside hi w', h'.aside S hi⟩) h

theorem along_reinforce (h : Synced u known gone existing w) {m : Memory} (hm : m ∈ existing) :
    (reinforce m existing).Along (handle S) Based (fun existing' w' => Synced u known gone existing' w') w := by
  obtain rfl : m.userId = u := h.userId m hm
  have htick := h.aside S (i := .utcnow) trivial
  refine .next trivial (.next ?_ (.pure ?_))
  · exact .inr ⟨m, h.stored m hm, .inl ⟨w.clock 0, rfl⟩⟩
  · exact htick.replace hm rfl rfl

/-- The record that `apply` appends counts as listed already: `new` was put before the first old one is retired. -/
theorem along_supersedeAll {id : String} {new : Memory} {stale : List Memory}
    (h : Synced u known gone (existing ++ [new]) w) (hstale : ∀ m ∈ stale, m ∈ existing)
    (hnodup : (stale.map (·.id)).Nodup) :
    (supersedeAll id stale existing).Along (handle S) Based
      (fun existing' w' => Synced u known (gone ++ stale.map (·.id)) (existing' ++ [new]) w') w := by
  induction stale generalizing existing gone w with
  | nil => exact .pure (by simpa using h)
  | cons m stale ih =>
    obtain ⟨hm, hnodup⟩ := List.nodup_cons.1 hnodup
    have hmem : m ∈ existing := hstale m List.mem_cons_self
    have hin : m ∈ existing ++ [new] := List.mem_append_left _ hmem
    obtain rfl : m.userId = u := h.userId m hin
    have htick := h.aside S (i := .utcnow) trivial
    have hrest : (existing ++ [new]).filter (fun n => n.id ≠ m.id) =
        existing.filter (fun n => n.id ≠ m.id) ++ [new] := by
      have hne : new.id ≠ m.id := by
        have hnd := h.nodup
        rw [List.map_append, List.nodup_append] at hnd
        exact (hnd.2.2 m.id (List.mem_map.2 ⟨m, hmem, rfl⟩) new.id (by simp)).symm
      simp [hne]
    have hput := htick.remove hin (x := retired m id (w.clock 0)) rfl rfl
    rw [hrest] at hput
    refine .next trivial (.next (.inr ⟨m, h.stored m hin, .inr ⟨id, w.clock 0, rfl⟩⟩) ?_)
    refine (ih hput (fun n hn => ?_) hnodup).mono (fun existing' w' h' => ?_)
    · refine List.mem_filter.2 ⟨hstale n (List.mem_cons_of_mem _ hn), decide_eq_true (fun he => ?_)⟩
      exact hm (List.mem_map.2 ⟨n, hn, he⟩)
    · simpa using h'

/-- A record that is built has an id of its own. -/
theorem along_build (h : Synced u known gone existing w) (c : CandidateFact) :
    (build c u threadId source).Along (handle S) Based (fun m w' => Synced u known gone existing w' ∧ m.userId = u ∧
      m.id ∈ w'.issued ∧ (w'.mem u).get m.id = none ∧ m.id ∉ gone) w := by
  refine .seq (h.along (only_expiry trivial c.ttlDays)) ?_
  rintro _ w₁ ⟨-, h₁⟩
  have h₂ := h₁.aside S (i := .uuid4) trivial
  have h₃ := h₂.aside S (i := .utcnow) trivial
  have h₄ := h₃.aside S (i := .utcnow) trivial
  refine .next trivial (.next trivial (.next trivial (.pure ⟨h₄, rfl, List.mem_cons_self, ?_, ?_⟩)))
  · exact Dict.get_eq_none_iff.2 (fun hk => h₁.fresh.ids_new 0 (h₁.keys_issued hk))
  · exact fun hg => h₁.fresh.ids_new 0 (h₁.gone_issued hg)

/-- What `_resolve` leaves, with the record that `apply` appends. -/
def Resolves (u : String) (known gone : List String) (r : MemoryDecision × Option Memory × List Memory) (w : World) :
    Prop :=
  Synced u (known ++ r.2.1.toList.map (·.id)) (gone ++ r.1.supersededIds) (r.2.2 ++ r.2.1.toList) w

theorem along_writeNew (h : Synced u known gone existing w) (c : CandidateFact) :
    (writeNew c existing u threadId source).Along (handle S) Based (Resolves u known gone) w := by
  refine .seq (along_build h c) ?_
  rintro m w₁ ⟨h₁, rfl, hissued, hnone, hgone⟩
  refine .next (.inl hnone) (.pure ?_)
  unfold Resolves
  rw [List.append_nil]
  exact h₁.append hissued rfl hnone hgone

theorem along_resolve (mm : MemoryManager) (h : Synced u known gone existing w) (c : CandidateFact) :
    (mm.resolve c existing u threadId source).Along (handle S) Based (Resolves u known gone) w := by
  have hdone : ∀ {existing' w'} (text id reason : String), Synced u known gone existing' w' →
      Resolves u known gone (⟨.dedupe, text, some id, [], reason⟩, none, existing') w' := by
    intro existing' w' text id reason h'
    simpa [Resolves] using h'
  unfold resolve
  split
  · split
    · next m hdup =>
      have hm := (mem_sameSlot.1 (List.mem_of_find?_eq_some hdup)).1
      exact .seq (along_reinforce h hm) (fun _ _ h' => .pure (hdone _ _ _ h'))
    · split
      · refine .seq (along_build h c) ?_
        rintro m w₁ ⟨h₁, rfl, hissued, hnone, hgone⟩
        refine .next (.inl hnone) ?_
        have hsub : ∀ n ∈ sameSlot c existing, n ∈ existing := fun n hn => (mem_sameSlot.1 hn).1
        refine .seq (along_supersedeAll (h₁.append hissued rfl hnone hgone) hsub ?_) (fun existing' w' h' => .pure h')
        exact h.nodup.sublist (List.filter_sublist.map _)
      · exact along_writeNew h c
  · refine .seq (h.along (only_nearest (fun _ => trivial) (fun _ _ _ _ => trivial) mm c.text)) ?_
    rintro near w₁ ⟨hnear, h₁⟩
    cases near with
    | some m => exact .seq (along_reinforce h₁ (hnear m rfl)) (fun _ _ h' => .pure (hdone _ _ _ h'))
    | none => exact along_writeNew h₁ c

end Candidate

/-! ## One turn -/

/-- `apply` is in its loop, with `existing` and what it reports so far: before
the first candidate, or after one and before those of `todo`. -/
inductive MidTurn (S : Services) (mm : MemoryManager) (u text : String) (threadId : Option String)
    (source : Provenance) (w : World) (fetched : List Memory) :
    List CandidateFact → List Memory → WriteReport → World → Prop
  | start {w'} (h : strip text ≠ "") (hg : (mm.gate.inspect (strip text) source).allowed = true)
      (hc : usable (S.extract (strip text)) (strip text) ≠ []) (hf : exec S (activeMemories u) w = (.ok fetched, w')) :
      MidTurn S mm u text threadId source w fetched (usable (S.extract (strip text)) (strip text)) fetched .empty w'
  | next {c todo existing report w' decision memory existing' w''}
      (h : MidTurn S mm u text threadId source w fetched (c :: todo) existing report w')
      (hr : exec S (mm.resolve c existing u threadId source) w' = (.ok (decision, memory, existing'), w'')) :
      MidTurn S mm u text threadId source w fetched todo (existing' ++ memory.toList)
        ⟨report.written ++ memory.toList, report.decisions ++ [decision]⟩ w''

section Turn
variable {S : Services} {mm : MemoryManager} {u text : String} {threadId : Option String} {source : Provenance}
  {existing fetched : List Memory} {report : WriteReport} {todo : List CandidateFact} {w w' : World}

/-- The list that a turn starts from. -/
theorem along_activeMemories (hf : w.Fresh) (hk : w.Keyed) :
    (activeMemories u).Along (handle S) Based (fun fetched w' => Synced u (fetched.map (·.id)) [] fetched w') w := by
  have hitems : ((((S.search (.memories u) (w.mem u) none).drop 0).take maxExisting).map (·.value)) = window S u w := by
    simp only [Components.search, window, List.drop_zero, ← List.map_take, List.map_map]
    rfl
  refine .next trivial ?_
  show Prog.Along _ _ _
    (activeOnly ((((S.search (.memories u) (w.mem u) none).drop 0).take maxExisting).map (·.value))) w
  rw [hitems]
  -- While the records are checked one by one, nothing is stored.
  refine Prog.Along.mono (.of_only (C := Aside)
    (I := fun w' => w'.mem u = w.mem u ∧ w.issued ⊆ w'.issued ∧ w'.Fresh) (only_activeOnly trivial _)
    (fun i w' hi h' => ?_) ⟨rfl, List.Subset.refl _, hf⟩) ?_
  · obtain ⟨hmem, hissued, hfresh⟩ := h'
    exact ⟨based_aside hi w', (aside_handle S hi w' u).trans hmem,
      List.Subset.trans hissued (after_handle S i w').issued, fresh_handle S i hfresh⟩
  · rintro fetched w' ⟨hsub, hmem, hissued, hfresh⟩
    have hget : ∀ m ∈ fetched, (w.mem u).get m.id = some m := by
      intro m hm
      obtain ⟨k, hget⟩ := mem_window (hsub.subset hm)
      rw [hk.id_eq hget]
      exact hget
    have hkeys : (w.mem u).keys ⊆ w.issued := by
      intro k hkey
      obtain ⟨m, hm⟩ := Dict.mem_keys_iff.1 hkey
      exact hk.issued hm
    exact .congr ⟨(window_ids_nodup S u hk).sublist (hsub.map _), hget, fun m hm => hk.user_eq (hget m hm), by simp,
      by simp, hkeys, hf⟩ hmem hissued hfresh

theorem along_resolveAll {known gone : List String} (h : Synced u known gone existing w) (cs : List CandidateFact) :
    (mm.resolveAll u threadId source cs existing report).Along (handle S) Based (fun _ _ => True) w := by
  induction cs generalizing known gone existing report w with
  | nil => exact .pure trivial
  | cons c cs ih => exact .seq (along_resolve mm h c) (fun _ _ h' => ih h')

theorem along_apply (hf : w.Fresh) (hk : w.Keyed) :
    (mm.apply u text threadId source).Along (handle S) Based (fun _ _ => True) w := by
  unfold apply
  split
  · exact .pure trivial
  split
  · exact .next trivial (.next trivial (.next trivial (.pure trivial)))
  · refine .next trivial ?_
    split
    · exact .pure trivial
    · exact .seq (along_activeMemories hf hk) (fun _ _ h' => along_resolveAll h' _)

/-- The rest of the turn is the loop over the candidates that are left. -/
theorem MidTurn.exec_apply (h : MidTurn S mm u text threadId source w fetched todo existing report w') :
    exec S (mm.apply u text threadId source) w = exec S (mm.resolveAll u threadId source todo existing report) w' := by
  induction h with
  | start h hg hc hf =>
    unfold apply
    rw [if_neg h, if_neg (not_not.2 hg), exec_extract, if_neg hc, exec_bind_of_ok S w hf]
  | @next c todo existing report w' decision memory existing' w'' _ hr ih =>
    rw [ih, resolveAll, exec_bind_of_ok S w' hr]

theorem MidTurn.synced (hf : w.Fresh) (hk : w.Keyed)
    (h : MidTurn S mm u text threadId source w fetched todo existing report w') :
    Synced u (fetched.map (·.id) ++ report.written.map (·.id))
      (report.decisions.flatMap (·.supersededIds)) existing w' := by
  induction h with
  | start h hg hc hfetch => simpa [WriteReport.empty] using (along_activeMemories hf hk).run hfetch
  | @next c todo existing report w' decision memory existing' w'' _ hr ih =>
    simpa [Resolves] using (along_resolve mm ih c).run hr

/-- The working list mirrors the store before the first candidate of a turn and
after each: distinct records as they are stored, which are those fetched and
those written so far, less those superseded so far. And every put of a record
is of a new one, or starts from what is stored then. -/
theorem apply_mirrors (S : Services) (mm : MemoryManager) (u text : String) (threadId : Option String)
    (source : Provenance) {w : World} (hf : w.Fresh) (hk : w.Keyed) :
    (∀ fetched todo existing report w', MidTurn S mm u text threadId source w fetched todo existing report w' →
      exec S (mm.apply u text threadId source) w = exec S (mm.resolveAll u threadId source todo existing report) w' ∧
        (existing.map (·.id)).Nodup ∧ (∀ m ∈ existing, (w'.mem u).get m.id = some m) ∧
        ∀ id, id ∈ existing.map (·.id) ↔ (id ∈ fetched.map (·.id) ∨ id ∈ report.written.map (·.id)) ∧
          id ∉ report.decisions.flatMap (·.supersededIds)) ∧
    ∀ i w', (mm.apply u text threadId source).Makes (handle S) w i w' → Based w' i := by
  refine ⟨fun fetched todo existing report w' h => ?_, fun i w' h => (along_apply hf hk).makes h⟩
  have hsynced := h.synced hf hk
  refine ⟨h.exec_apply, hsynced.nodup, hsynced.stored, fun id => ?_⟩
  rw [hsynced.ids, List.mem_append]

end Turn

end Engram

/-! ## Two statements in a turn -/

namespace Engram

open MemoryManager Backend Text

attribute [local instance] ascii

/-- An extractor that finds two teams in every text, one after the other. -/
def teamTwice : Services :=
  .inMemory (fun _ => [.stating "team" "payments" none, .stating "team" "platform" none])
    (fun _ _ => 1) (fun _ => some "ok")

/-- The second team supersedes the first, written just before; the list is left with the second. -/
theorem apply_mirrors_twice : ∃ existing report w',
    MidTurn teamTwice lenient "alice" "moved" none .user (Backend.empty.given (.at 1 'a')) [] [] existing report w' ∧
      (existing.map (·.id)).Nodup ∧ (∀ m ∈ existing, (w'.mem "alice").get m.id = some m) ∧
      ∀ id, id ∈ existing.map (·.id) ↔ id = "aa" := by
  have hc : usable (teamTwice.extract (strip "moved")) (strip "moved") =
      [.stating "team" "payments" none, .stating "team" "platform" none] := by decide +kernel
  have hstart : MidTurn teamTwice lenient "alice" "moved" none .user (Backend.empty.given (.at 1 'a')) []
      [.stating "team" "payments" none, .stating "team" "platform" none] [] .empty
        (Backend.empty.given (.at 1 'a')) := by
    rw [← hc]
    refine .start (by decide +kernel) (by decide +kernel) ?_ rfl
    rw [hc]
    exact List.cons_ne_nil _ _
  have hend := MidTurn.next (.next hstart rfl) rfl
  obtain ⟨-, hnodup, hstored, hids⟩ := (apply_mirrors teamTwice lenient "alice" "moved" none .user
    (fed_given (Stamped.empty.valid (by decide) (by decide))).fresh (keyed_empty.given _)).1 _ _ _ _ _ hend
  refine ⟨_, _, _, hend, hnodup, hstored, fun id => (hids id).trans ?_⟩
  show (id ∈ [] ∨ id ∈ ["a", "aa"]) ∧ id ∉ ["a"] ↔ id = "aa"
  simp only [List.mem_cons, List.not_mem_nil, false_or, or_false]
  constructor
  · rintro ⟨rfl | rfl, hne⟩
    · exact absurd rfl hne
    · rfl
  · rintro rfl
    exact ⟨.inr rfl, by decide⟩

end Engram
