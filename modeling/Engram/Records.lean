import Engram.Runs
/-!
# What a turn does to the records

`resolve_cases` says once what the resolver can do for a candidate: fail on an
expiry past the calendar, rewrite one record with a higher importance, or add a
new record and retire others. `resolveAll_inv` carries an invariant along the
candidates of a turn.
-/

namespace Engram

open MemoryManager Text

variable [Host]

/-! ## Worlds -/

namespace Backend

/-- Every memory lies under its id, for the user it is about, and its id was issued. -/
structure Keyed (w : World) : Prop where
  id_eq : ∀ {u k m}, (w.mem u).get k = some m → m.id = k
  user_eq : ∀ {u k m}, (w.mem u).get k = some m → m.userId = u
  issued : ∀ {u k m}, (w.mem u).get k = some m → k ∈ w.issued

/-- Worlds with the same memories are keyed alike. -/
theorem Keyed.congr {w w' : World} (h : w.Keyed) (hmem : ∀ u, w'.mem u = w.mem u)
    (hi : w.issued ⊆ w'.issued) : w'.Keyed where
  id_eq hget := h.id_eq (hmem _ ▸ hget)
  user_eq hget := h.user_eq (hmem _ ▸ hget)
  issued hget := hi (h.issued (hmem _ ▸ hget))

theorem keyed_empty : Backend.empty.Keyed where
  id_eq h := by cases h
  user_eq h := by cases h
  issued h := by cases h

theorem Keyed.given {w : World} (h : w.Keyed) (i : Input) : (w.given i).Keyed :=
  h.congr (fun _ => rfl) (List.Subset.refl _)

/-- The records of `u` became `d`, and no other data changed. -/
structure Wrote (u : String) (d : Dict String Memory) (w w' : World) : Prop where
  store : w'.store = Function.update w.store (Namespace.memories u) d
  checkpoints : w'.checkpoints = w.checkpoints

/-- No data changed. -/
structure SameData (w w' : World) : Prop where
  store : w'.store = w.store
  checkpoints : w'.checkpoints = w.checkpoints

variable {w w' w'' : World} {u : String} {d d' : Dict String Memory}

theorem SameData.refl (w : World) : SameData w w := ⟨rfl, rfl⟩

theorem SameData.trans (h : SameData w w') (h' : SameData w' w'') : SameData w w'' :=
  ⟨h'.store.trans h.store, h'.checkpoints.trans h.checkpoints⟩

theorem SameData.mem (h : SameData w w') : w'.mem u = w.mem u := congrFun h.store _

theorem SameData.wrote (h : SameData w w') : Wrote u (w.mem u) w w' :=
  ⟨by rw [h.store, Function.update_eq_self], h.checkpoints⟩

theorem Wrote.mem (h : Wrote u d w w') : w'.mem u = d := by
  show w'.store (.memories u) = d
  rw [h.store, Function.update_self]

theorem Wrote.trans (h : Wrote u d w w') (h' : Wrote u d' w' w'') : Wrote u d' w w'' :=
  ⟨by rw [h'.store, h.store, Function.update_idem], h'.checkpoints.trans h.checkpoints⟩

theorem Wrote.of_same (h : SameData w w') (h' : Wrote u d w' w'') : Wrote u d w w'' :=
  ⟨by rw [h'.store, h.store], h'.checkpoints.trans h.checkpoints⟩

theorem Wrote.store_of_ne (h : Wrote u d w w') {ns : Namespace} (hns : ns ≠ .memories u) :
    w'.store ns = w.store ns := by
  rw [h.store, Function.update_of_ne hns]

theorem wrote_put (w : World) (u k : String) (m : Memory) :
    Wrote u ((w.mem u).set k m) w (w.put (.memories u) k m) := ⟨rfl, rfl⟩

theorem sameData_tick (w : World) : SameData w w.tick := ⟨rfl, rfl⟩

theorem sameData_embed (S : Services) (w : World) (text : String) : SameData w (w.embed S text).2 :=
  ⟨w.store_embed S text, w.checkpoints_embed S text⟩

end Backend

open Backend

section Exec
variable {S : Services} {w w' : World} {α : Type} {p : Act α} {r : Except Error α}

theorem Fed.of_exec (hw : w.Fed) (h : exec S p w = (r, w')) : w'.Fed := by
  have := fed_exec S p hw
  rwa [h] at this

theorem After.of_exec (h : exec S p w = (r, w')) : w.After w' := by
  have := after_exec S p (w := w)
  rwa [h] at this

end Exec

/-! ## The snapshot -/

/-- Reading whether a record is active, at the reading taken for it if any. -/
theorem exec_isActiveNow (S : Services) (m : Memory) (w : World) :
    ∃ b w', exec S (isActiveNow m none) w = (.ok b, w') ∧ SameData w w' ∧
      (b = true → m.isActive (w.clock 0)) ∧ (b = false → ¬ m.isActive w'.now) := by
  unfold isActiveNow Memory.isActive
  by_cases hs : m.supersededBy.isSome
  · exact ⟨false, w, by simp [hs], .refl w, by simp, by simp [hs]⟩
  · cases he : m.expiresAt with
    | none => exact ⟨true, w, by simp [hs], .refl w, by simp [hs], by simp⟩
    | some e =>
      refine ⟨decide (w.clock 0 < e), w.tick, by simp [hs], sameData_tick w, by simp [hs], fun h => ?_⟩
      simp only [hs]
      exact ne_true_of_eq_false h

theorem exec_activeOnly (S : Services) (ms : List Memory) {w : World} (hw : w.Fed) :
    ∃ ms' w', exec S (activeOnly ms) w = (.ok ms', w') ∧ SameData w w' ∧ ms'.Sublist ms ∧
      (∀ m ∈ ms', m.isActive (w.clock 0)) ∧ ∀ m ∈ ms, m.isActive w'.now → m ∈ ms' := by
  induction ms generalizing w with
  | nil => exact ⟨[], w, rfl, .refl w, .slnil, by simp, by simp⟩
  | cons m ms ih =>
    obtain ⟨b, w₁, hb, hd₁, ht, hf⟩ := exec_isActiveNow S m w
    have hw₁ := Fed.of_exec hw hb
    obtain ⟨ms', w₂, hms, hd₂, hsub, hact, hkeep⟩ := ih hw₁
    have hle : w₁.now ≤ w₂.now := (After.of_exec hms).now_le hw₁
    have hclock : w.clock 0 ≤ w₁.clock 0 := by
      obtain ⟨k, hk⟩ := (After.of_exec hb).clock 0
      rw [hk]
      exact hw.clock_mono (Nat.zero_le k)
    refine ⟨if b then m :: ms' else ms', w₂, ?_, hd₁.trans hd₂, ?_, ?_, ?_⟩
    · simp only [activeOnly]
      rw [exec_bind_of_ok S w hb, exec_bind_of_ok S w₁ hms, exec_pure]
    · cases b
      · exact hsub.cons m
      · exact hsub.cons_cons m
    · intro n hn
      have hrest : ∀ n ∈ ms', n.isActive (w.clock 0) := fun n hn => Memory.isActive_of_le hclock (hact n hn)
      cases b with
      | false => exact hrest n hn
      | true =>
        rcases List.mem_cons.1 hn with rfl | hn
        · exact ht rfl
        · exact hrest n hn
    · intro n hn ha
      rcases List.mem_cons.1 hn with rfl | hn
      · cases b with
        | true => exact List.mem_cons_self
        | false => exact absurd (Memory.isActive_of_le hle ha) (hf rfl)
      · cases b with
        | true => exact List.mem_cons_of_mem _ (hkeep n hn ha)
        | false => exact hkeep n hn ha

/-! ## Near-duplicates -/

theorem exec_closest (S : Services) (query : Vec) (ms : List Memory) (best : Option Memory × Rat) (w : World) :
    ∃ best' w', exec S (closest query ms best) w = (.ok best', w') ∧ SameData w w' ∧
      ∀ m, best'.1 = some m → best.1 = some m ∨ m ∈ ms := by
  induction ms generalizing best w with
  | nil => exact ⟨best, w, rfl, .refl w, fun m h => .inl h⟩
  | cons a ms ih =>
    obtain ⟨best', w', h, hd, hm⟩ := ih (if best.2 < cosine query (w.embed S a.text).1
      then (some a, cosine query (w.embed S a.text).1) else best) (w.embed S a.text).2
    refine ⟨best', w', by simpa only [closest, exec_embed] using h, (sameData_embed S w a.text).trans hd, ?_⟩
    intro m hbest
    rcases hm m hbest with h | h
    · split at h
      · exact .inr (Option.some.inj h ▸ List.mem_cons_self)
      · exact .inl h
    · exact .inr (List.mem_cons_of_mem _ h)

omit [Host] in
theorem live_mem {existing : List Memory} {key : String} {m : Memory} (h : live existing key = some m) :
    m ∈ existing :=
  List.mem_reverse.1 (List.mem_of_find?_eq_some h)

/-- A near-duplicate is one of the records it was looked for in. -/
theorem exec_nearest (S : Services) (mm : MemoryManager) (text : String) (existing : List Memory) (w : World) :
    ∃ near w', exec S (mm.nearest text existing) w = (.ok near, w') ∧ SameData w w' ∧
      ∀ m, near = some m → m ∈ existing := by
  unfold nearest
  cases existing with
  | nil => exact ⟨none, w, rfl, .refl w, by simp⟩
  | cons a rest =>
    rw [exec_searchMemories]
    dsimp only
    have hlive : ∀ items : List (SearchItem Memory),
        ∀ m ∈ items.filterMap (fun item => live (a :: rest) item.key), m ∈ a :: rest := by
      intro items m hm
      obtain ⟨item, -, hitem⟩ := List.mem_filterMap.1 hm
      exact live_mem hitem
    split
    · exact ⟨none, w, rfl, .refl w, by simp⟩
    · obtain ⟨best, w', hb, hd, hm⟩ := exec_closest S (w.embed S text).1 _ (none, 0) (w.embed S text).2
      refine ⟨if mm.dedupeSimilarity ≤ best.2 then best.1 else none, w', ?_, (sameData_embed S w text).trans hd, ?_⟩
      · rw [exec_embed, exec_bind_of_ok S _ hb, exec_pure]
      · intro m h
        split at h
        · rcases hm m h with h | h
          · cases h
          · exact hlive _ m h
        · cases h

/-! ## New records -/

/-- What the write path guarantees of a record it builds at `w`. -/
structure New (c : CandidateFact) (u : String) (threadId : Option String) (source : Provenance) (w w' : World)
    (m : Memory) : Prop where
  id_new : m.id ∉ w.issued
  id_issued : m.id ∈ w'.issued
  now_ge : w.clock 0 ≤ w'.now
  userId : m.userId = u
  slot : m.slot = c.slot
  value : m.value = c.value
  supersededBy : m.supersededBy = none
  supersededAt : m.supersededAt = none
  expiresAt : ∃ n, m.expiresAt = c.ttlDays.map (fun d : PNat => w.clock n + d * day)

theorem exec_build (S : Services) (c : CandidateFact) (u : String) (threadId : Option String) (source : Provenance)
    {w : World} (hw : w.Fed) :
    (∃ d w', c.ttlDays = some d ∧ addDays (w.clock 0) d = none ∧
      exec S (build c u threadId source) w = (.error .overflow, w') ∧ SameData w w') ∨
    ∃ m w', exec S (build c u threadId source) w = (.ok m, w') ∧ SameData w w' ∧ New c u threadId source w w' m := by
  unfold build expiry
  cases hc : c.ttlDays with
  | none =>
    refine .inr ⟨_, w.issue.tick.tick, rfl, ⟨rfl, rfl⟩, ?_⟩
    refine ⟨hw.ids_new 0, List.mem_cons_self, hw.clock_mono (Nat.zero_le 1), rfl, rfl, rfl, rfl, rfl, 0, ?_⟩
    simp [hc]
  | some d =>
    cases he : addDays (w.clock 0) d with
    | none =>
      refine .inl ⟨d, w.tick, rfl, he, ?_, ⟨rfl, rfl⟩⟩
      simp only [bind_assoc, exec_utcnow, he, Prog.raise_bind, exec_raise]
    | some e =>
      refine .inr ⟨?_, w.tick.issue.tick.tick, ?run, ⟨rfl, rfl⟩, ?new⟩
      case run =>
        simp only [bind_assoc, exec_utcnow, he, pure_bind, exec_uuid4]
        rfl
      case new =>
        refine ⟨hw.ids_new 0, List.mem_cons_self, hw.clock_mono (Nat.zero_le 2), rfl, rfl, rfl, rfl, rfl, 0, ?_⟩
        simp [hc, addDays_eq_some he]

/-- What is new after some calls and before others is new over all of them. -/
theorem New.widen {c : CandidateFact} {u : String} {threadId : Option String} {source : Provenance}
    {w₀ w w' w'' : World} {m : Memory} (h : New c u threadId source w w' m) (hw₀ : w₀.Fed) (h₀ : w₀.After w)
    (hw' : w'.Fed) (h' : w'.After w'') : New c u threadId source w₀ w'' m where
  id_new hm := h.id_new (h₀.issued hm)
  id_issued := h'.issued h.id_issued
  now_ge := by
    obtain ⟨k, hk⟩ := h₀.clock 0
    calc w₀.clock 0 ≤ w₀.clock k := hw₀.clock_mono (Nat.zero_le k)
      _ = w.clock 0 := hk.symm
      _ ≤ w'.now := h.now_ge
      _ ≤ w''.now := h'.now_le hw'
  userId := h.userId
  slot := h.slot
  value := h.value
  supersededBy := h.supersededBy
  supersededAt := h.supersededAt
  expiresAt := by
    obtain ⟨n, hn⟩ := h.expiresAt
    obtain ⟨k, hk⟩ := h₀.clock n
    exact ⟨k, by rw [hn, hk]⟩

/-! ## Retiring -/

/-- The records after each of `stale` was retired at its time. -/
def retireAll (replacementId : String) (stale : List (Memory × Time)) (d : Dict String Memory) : Dict String Memory :=
  stale.foldl (fun d r => d.set r.1.id (retired r.1 replacementId r.2)) d

theorem exec_supersedeAll (S : Services) (u id : String) (stale existing : List Memory) (w : World)
    (hu : ∀ m ∈ stale, m.userId = u) :
    ∃ rs w', exec S (supersedeAll id stale existing) w =
        (.ok (existing.filter (fun m => m.id ∉ stale.map (·.id))), w') ∧
      rs.map Prod.fst = stale ∧ Wrote u (retireAll id rs (w.mem u)) w w' := by
  induction stale generalizing existing w with
  | nil => exact ⟨[], w, by simp [supersedeAll], rfl, (SameData.refl w).wrote⟩
  | cons m stale ih =>
    obtain rfl : m.userId = u := hu m List.mem_cons_self
    set w₁ := w.tick.put (.memories m.userId) m.id (retired m id (w.clock 0)) with hw₁
    have h₁ : Wrote m.userId ((w.mem m.userId).set m.id (retired m id (w.clock 0))) w w₁ :=
      .of_same (sameData_tick w) (wrote_put w.tick m.userId m.id _)
    obtain ⟨rs, w', h, hrs, hd⟩ := ih (existing.filter (fun n => n.id ≠ m.id)) w₁
      (fun n hn => hu n (List.mem_cons_of_mem _ hn))
    refine ⟨(m, w.clock 0) :: rs, w', ?_, by simp [hrs], ?_⟩
    · have hstep : exec S (supersede m id existing) w = (.ok (existing.filter (fun n => n.id ≠ m.id)), w₁) := rfl
      rw [supersedeAll, exec_bind_of_ok S w hstep, h, List.filter_filter]
      congr 2
      refine List.filter_congr (fun n _ => ?_)
      by_cases hn : n.id = m.id <;> simp [hn]
    · rw [h₁.mem] at hd
      exact h₁.trans hd

omit [Host] in
theorem get_retireAll_of_notMem {id k : String} {rs : List (Memory × Time)} {d : Dict String Memory}
    (hk : ∀ r ∈ rs, r.1.id ≠ k) : (retireAll id rs d).get k = d.get k := by
  induction rs generalizing d with
  | nil => rfl
  | cons r rs ih =>
    rw [retireAll, List.foldl_cons, ← retireAll, ih (fun r hr => hk r (List.mem_cons_of_mem _ hr)),
      Dict.get_set_of_ne _ _ (hk r List.mem_cons_self).symm]

omit [Host] in
theorem get_retireAll_of_mem {id : String} {rs : List (Memory × Time)} {d : Dict String Memory} {r : Memory × Time}
    (hnd : (rs.map (fun r => r.1.id)).Nodup) (hr : r ∈ rs) :
    (retireAll id rs d).get r.1.id = some (retired r.1 id r.2) := by
  induction rs generalizing d with
  | nil => cases hr
  | cons q rs ih =>
    obtain ⟨hq, hnd⟩ := List.nodup_cons.1 hnd
    rw [retireAll, List.foldl_cons, ← retireAll]
    rcases List.mem_cons.1 hr with rfl | hr
    · rw [get_retireAll_of_notMem, Dict.get_set_self]
      intro p hp hpid
      exact hq (List.mem_map.2 ⟨p, hp, hpid⟩)
    · exact ih hnd hr

/-! ## One candidate -/

/-- The records a candidate retires if none of them has its value. -/
def rivals (c : CandidateFact) (existing : List Memory) : List Memory :=
  if c.attr = "" then [] else sameSlot c existing

/-- What `_resolve` can do for `c` at `w`. -/
inductive Resolved (c : CandidateFact) (u : String) (threadId : Option String) (source : Provenance)
    (existing : List Memory) (w : World) :
    Except Error (MemoryDecision × Option Memory × List Memory) × World → Prop
  | overflow {d n w'} (hd : c.ttlDays = some d) (hn : addDays (w.clock n) d = none) (hw : SameData w w') :
      Resolved c u threadId source existing w (.error .overflow, w')
  | reinforced (reason : String) {m t w'} (hm : m ∈ existing)
      (hc : c.attr ≠ "" → m.slot = c.slot ∧ norm m.value = norm c.value)
      (hw : Wrote u ((w.mem u).set m.id (reinforced m t)) w w') :
      Resolved c u threadId source existing w
        (.ok (⟨.dedupe, c.text, some m.id, [], reason⟩, none, replace (reinforced m t) existing), w')
  | added (reason : String) {new rs w'} (hnew : New c u threadId source w w' new)
      (hrs : rs.map Prod.fst = rivals c existing) (hc : ∀ m ∈ rivals c existing, norm m.value ≠ norm c.value)
      (hw : Wrote u (retireAll new.id rs ((w.mem u).set new.id new)) w w') :
      Resolved c u threadId source existing w
        (.ok (⟨if rivals c existing = [] then .write else .supersede, c.text, some new.id,
          (rivals c existing).map (·.id), reason⟩, some new,
          existing.filter (fun m => m.id ∉ (rivals c existing).map (·.id))), w')

theorem Resolved.widen {c : CandidateFact} {u : String} {threadId : Option String} {source : Provenance}
    {existing : List Memory} {w₀ w : World} {r : Except Error (MemoryDecision × Option Memory × List Memory) × World}
    (h : Resolved c u threadId source existing w r) (hw₀ : w₀.Fed) (ha : w₀.After w) (hs : SameData w₀ w)
    (hr : r.2.Fed) : Resolved c u threadId source existing w₀ r := by
  cases h with
  | overflow hd hn hw =>
    obtain ⟨k, hk⟩ := ha.clock _
    exact .overflow hd (hk ▸ hn) (hs.trans hw)
  | reinforced _ hm hc hw =>
    rw [hs.mem] at hw
    exact .reinforced _ hm hc (.of_same hs hw)
  | added _ hnew hrs hc hw =>
    rw [hs.mem] at hw
    exact .added _ (hnew.widen hw₀ ha hr (.refl _)) hrs hc (.of_same hs hw)

section Resolve
variable (S : Services) (mm : MemoryManager) {c : CandidateFact} {u : String} {threadId : Option String}
  {source : Provenance} {existing : List Memory} {w : World}

omit [Host] in
theorem mem_sameSlot {m : Memory} : m ∈ sameSlot c existing ↔ m ∈ existing ∧ m.slot = c.slot := by
  simp [sameSlot, Memory.slot, CandidateFact.slot]

theorem exec_reinforce (m : Memory) (hm : m.userId = u) :
    exec S (reinforce m existing) w =
      (.ok (replace (reinforced m (w.clock 0)) existing),
        w.tick.put (.memories u) m.id (reinforced m (w.clock 0))) := by
  subst hm
  rfl

theorem exec_writeNew (hw : w.Fed) (hr : rivals c existing = []) :
    Resolved c u threadId source existing w (exec S (writeNew c existing u threadId source) w) := by
  unfold writeNew
  rcases exec_build S c u threadId source hw with ⟨d, w₁, hd, hover, hb, hsame⟩ | ⟨m, w₁, hb, hsame, hnew⟩
  · rw [exec_bind_of_error S w hb]
    exact .overflow hd hover hsame
  · have hw₁ := Fed.of_exec hw hb
    rw [exec_bind_of_ok S w hb, exec_storePut, exec_pure]
    obtain rfl : m.userId = u := hnew.userId
    have hrs : ([] : List (Memory × Time)).map Prod.fst = rivals c existing := hr.symm
    have hres := Resolved.added ""
      (hnew.widen hw (.refl w) hw₁ (after_handle S (.put (.memories m.userId) m.id m) w₁))
      hrs (by simp [hr]) (.of_same hsame (hsame.mem ▸ wrote_put w₁ m.userId m.id m))
    simp only [hr, if_true, List.map_nil, List.not_mem_nil, not_false_eq_true, decide_true, List.filter_true] at hres
    exact hres

/-- What the resolver does, in full. -/
theorem resolve_spec (c : CandidateFact) (threadId : Option String) (source : Provenance) (hw : w.Fed)
    (hu : ∀ m ∈ existing, m.userId = u) :
    Resolved c u threadId source existing w (exec S (resolve mm c existing u threadId source) w) := by
  unfold resolve
  split
  · next hattr =>
    have hriv : rivals c existing = sameSlot c existing := if_neg hattr
    cases hdup : (sameSlot c existing).find? (fun m => norm m.value = norm c.value) with
    | some m =>
      obtain ⟨hm, hslot⟩ := mem_sameSlot.1 (List.mem_of_find?_eq_some hdup)
      have hval : norm m.value = norm c.value := by simpa using List.find?_some hdup
      rw [exec_bind_of_ok S w (exec_reinforce S m (hu m hm)), exec_pure]
      exact .reinforced _ hm (fun _ => ⟨hslot, hval⟩)
        (.of_same (sameData_tick w) (wrote_put w.tick u m.id (reinforced m (w.clock 0))))
    | none =>
      have hne : ∀ m ∈ rivals c existing, norm m.value ≠ norm c.value := by
        intro m hm
        rw [hriv] at hm
        simpa using List.find?_eq_none.1 hdup m hm
      dsimp only
      split
      · next hs =>
        rcases exec_build S c u threadId source hw with ⟨d, w₁, hd, hover, hb, hsame⟩ | ⟨m, w₁, hb, hsame, hnew⟩
        · rw [exec_bind_of_error S w hb]
          exact .overflow hd hover hsame
        · have hw₁ := Fed.of_exec hw hb
          obtain rfl : m.userId = u := hnew.userId
          -- The record is put, then its rivals are retired: two writes that compose.
          have hput := Wrote.of_same hsame (wrote_put w₁ m.userId m.id m)
          obtain ⟨rs, w₂, hrun, hrs, hret⟩ := exec_supersedeAll S m.userId m.id (sameSlot c existing) existing
            (w₁.put (.memories m.userId) m.id m) (fun n hn => hu n (mem_sameSlot.1 hn).1)
          have hafter : w₁.After w₂ :=
            (after_handle S (.put (.memories m.userId) m.id m) w₁).trans (After.of_exec hrun)
          rw [exec_bind_of_ok S w hb, exec_storePut, exec_bind_of_ok S _ hrun, exec_pure]
          rw [hput.mem, hsame.mem] at hret
          have hres := Resolved.added
            (c.attr ++ ": " ++ ", ".intercalate ((sameSlot c existing).map (·.value)) ++ " -> " ++ c.value)
            (hnew.widen hw (.refl w) hw₁ hafter) (hrs.trans hriv.symm) hne (hput.trans hret)
          rw [hriv, if_neg hs] at hres
          exact hres
      · next hs => exact exec_writeNew S hw (hriv.trans (not_ne_iff.1 hs))
  · next hattr =>
    have hriv : rivals c existing = [] := if_pos (not_ne_iff.1 hattr)
    obtain ⟨near, w₁, hn, hsame, hmem⟩ := exec_nearest S mm c.text existing w
    have hw₁ := Fed.of_exec hw hn
    rw [exec_bind_of_ok S w hn]
    cases near with
    | some m =>
      have hm := hmem m rfl
      dsimp only
      rw [exec_bind_of_ok S w₁ (exec_reinforce S m (hu m hm)), exec_pure]
      refine .reinforced _ hm (fun h => absurd h hattr) ?_
      rw [← hsame.mem]
      exact .of_same (hsame.trans (sameData_tick w₁)) (wrote_put w₁.tick u m.id (reinforced m (w₁.clock 0)))
    | none =>
      exact (exec_writeNew S hw₁ hriv).widen hw (After.of_exec hn) hsame (fed_exec S _ hw₁)

end Resolve

/-! ## Blocked text -/

/-- A blocked text goes into quarantine, and nothing else happens. -/
theorem exec_apply_blocked (S : Services) (w : World) {mm : MemoryManager} {u text : String}
    (threadId : Option String) {source : Provenance} (h : strip text ≠ "")
    (hg : (mm.gate.inspect (strip text) source).allowed = false) :
    exec S (mm.apply u text threadId source) w =
      (.ok ⟨[], [⟨.quarantine, strip text, none, [], (mm.gate.inspect (strip text) source).reason⟩]⟩,
        w.tick.tick.put (.quarantine u) (InjectionGate.quarantineKey (w.clock 0) (strip text))
          ⟨strip text, (mm.gate.inspect (strip text) source).source, (mm.gate.inspect (strip text) source).decision,
            (mm.gate.inspect (strip text) source).reason, (mm.gate.inspect (strip text) source).markers, threadId,
            w.tick.clock 0⟩) := by
  rw [MemoryManager.apply, if_neg h, if_pos (ne_true_of_eq_false hg)]
  rfl

end Engram
