import Engram.Completeness
import Engram.Turn
/-!
# What a user can inspect

The endpoints that list a user's records stop at a limit, deletion does not.
-/

namespace Engram

open Backend Text

variable [Host]

/-! ## The listings -/

section Listings
variable (S : Services) (u : String)

theorem exec_memoriesOut (ms : List Memory) (w : World) :
    ∃ out w', exec S (memoriesOut ms) w = (.ok out, w') ∧ out.map (·.id) = ms.map (·.id) := by
  induction ms generalizing w with
  | nil => exact ⟨[], w, rfl, rfl⟩
  | cons m ms ih =>
    obtain ⟨active, w₁, hactive, -⟩ := exec_isActiveNow S m w
    obtain ⟨out, w₂, hout, hids⟩ := ih w₁
    refine ⟨⟨m.id, m.text, m.kind.str, m.source.str, m.attr, m.value, m.importance.val, active,
      Host.isoformat m.createdAt, m.expiresAt.map Host.isoformat, m.supersededBy⟩ :: out, w₂, ?_, ?_⟩
    · rw [memoriesOut, MemoryOut.of, bind_assoc, exec_bind_of_ok S w hactive, pure_bind,
        exec_bind_of_ok S w₁ hout, exec_pure]
    · rw [List.map_cons, List.map_cons, hids]

theorem exec_activeOnly_ok (ms : List Memory) (w : World) :
    ∃ active w', exec S (activeOnly ms) w = (.ok active, w') := by
  induction ms generalizing w with
  | nil => exact ⟨[], w, rfl⟩
  | cons m ms ih =>
    obtain ⟨active, w₁, hactive, -⟩ := exec_isActiveNow S m w
    obtain ⟨rest, w₂, hrest⟩ := ih w₁
    exact ⟨_, w₂, by rw [activeOnly, exec_bind_of_ok S w hactive, exec_bind_of_ok S w₁ hrest, exec_pure]⟩

/-- The first 1000 memories, retired ones included. -/
theorem exec_listMemoriesRoute (w : World) :
    ∃ active listed w', exec S (Agent.listMemoriesRoute u true) w =
        (.ok (.memories u ((S.walk (.memories u) (w.mem u)).take 1000).length active listed), w') ∧
      listed.map (·.id) = ((S.walk (.memories u) (w.mem u)).take 1000).map (fun e => e.2.id) := by
  obtain ⟨active, w₁, hactive⟩ := exec_activeOnly_ok S (((S.walk (.memories u) (w.mem u)).take 1000).map Prod.snd) w
  obtain ⟨listed, w₂, hlisted, hids⟩ :=
    exec_memoriesOut S (((S.walk (.memories u) (w.mem u)).take 1000).map Prod.snd) w₁
  refine ⟨active.length, listed, w₂, ?_, by rw [hids, List.map_map]; rfl⟩
  rw [Agent.listMemoriesRoute, exec_bind_of_ok S w (MemoryReader.exec_allMemories S u w)]
  simp only [if_true]
  rw [pure_bind, exec_bind_of_ok S w hactive, exec_bind_of_ok S w₁ hlisted, exec_pure, List.length_map]

/-- The first 100 blocked contents. -/
theorem exec_quarantineRoute (w : World) :
    exec S (Agent.quarantineRoute u) w =
      (.ok (.quarantine u ((S.walk (.quarantine u) (w.store (.quarantine u))).take 100).length
        (((S.walk (.quarantine u) (w.store (.quarantine u))).take 100).map Prod.snd)), w) := by
  have hheld : exec S (InjectionGate.quarantined u) w =
      (.ok (((S.walk (.quarantine u) (w.store (.quarantine u))).take 100).map Prod.snd), w) := by
    rw [InjectionGate.quarantined, exec_storeSearch, exec_pure]
    simp only [Components.search, List.drop_zero, ← List.map_take, List.map_map]
    rfl
  rw [Agent.quarantineRoute, exec_bind_of_ok S w hheld, exec_pure, List.length_map]

end Listings

/-! ## Against deletion -/

omit [Host] in
/-- A page is the whole if it is long enough, and only then. -/
theorem take_perm_iff {α β : Type} {l l' : List α} (f : α → β) (hl : l.Perm l') (n : Nat) :
    ((l.take n).map f).Perm (l'.map f) ↔ l'.length ≤ n := by
  refine ⟨fun h => ?_, fun h => ?_⟩
  · have hlen := h.length_eq
    rw [List.length_map, List.length_map, List.length_take] at hlen
    omega
  · rw [List.take_of_length_le (by rw [hl.length_eq]; exact h)]
    exact hl.map f

/-- Listing and deletion agree on what is there exactly up to the limits of the
two listings. -/
theorem inspection_iff {ag : Agent} {w : World} (h : FaultyRun ag w) (S : Services) (i : Input) (u : String) :
    ∃ total active listed count items report w₁ w₂ w₃,
      exec S (Agent.listMemoriesRoute u true) (w.given i) = (.ok (.memories u total active listed), w₁) ∧
      exec S (Agent.quarantineRoute u) (w.given i) = (.ok (.quarantine u count items), w₂) ∧
      ag.perform S (.forgetUser u) (w.given i) = (.ok (.forgot report), w₃) ∧
      (((listed.map (·.id)).Perm (w.mem u).keys ∧ total = report.memoriesDeleted ∧ count = report.quarantineDeleted ∧
          items.Perm (w.store (.quarantine u)).values) ↔
        (w.mem u).size ≤ 1000 ∧ (w.store (.quarantine u)).size ≤ 100) := by
  have hw := h.accounted
  obtain ⟨active, listed, w₁, hlist, hids⟩ := exec_listMemoriesRoute S u (w.given i)
  refine ⟨_, active, listed, _, _, _, w₁, _, _, hlist, exec_quarantineRoute S u (w.given i),
    exec_forgetUser_accounted ag S i u hw, ?_⟩
  have hm := S.walk_perm (.memories u) (w.mem u)
  have hq := S.walk_perm (.quarantine u) (w.store (.quarantine u))
  have hkeys : listed.map (·.id) = ((S.walk (.memories u) (w.mem u)).take 1000).map Prod.fst := by
    rw [hids]
    refine List.map_congr_left (fun e he => ?_)
    exact (hw.matched _ _ _ (Dict.get_eq_some_iff.2 (hm.mem_iff.1 (List.mem_of_mem_take he)))).1
  -- Each listing is the first part of a walk, so it is complete if it is long enough.
  have hlisted : (listed.map (·.id)).Perm (w.mem u).keys ↔ (w.mem u).size ≤ 1000 := by
    rw [hkeys]
    exact take_perm_iff Prod.fst hm 1000
  have hitems := take_perm_iff Prod.snd hq 100
  have htotal : ((S.walk (.memories u) (w.mem u)).take 1000).length = (w.mem u).size ↔ (w.mem u).size ≤ 1000 := by
    rw [List.length_take, hm.length_eq]
    unfold Dict.size
    omega
  have hcount : ((S.walk (.quarantine u) (w.store (.quarantine u))).take 100).length = (w.store (.quarantine u)).size ↔
      (w.store (.quarantine u)).size ≤ 100 := by
    rw [List.length_take, hq.length_eq]
    unfold Dict.size
    omega
  exact ⟨fun ⟨hl, _, _, hi⟩ => ⟨hlisted.1 hl, hitems.1 hi⟩,
    fun ⟨hms, hqs⟩ => ⟨hlisted.2 hms, htotal.2 hms, hcount.2 hqs, hitems.2 hqs⟩⟩

end Engram

/-! ## A user whose tools keep talking -/

namespace Engram

open Backend

attribute [local instance] ascii

/-- The `n`-th text a tool returns. -/
def chatter (n : Nat) : String := String.ofList (.replicate (n + 1) 'x')

/-- The first `n` of them, each blocked. -/
def pestered : Nat → World
  | 0 => Backend.empty
  | n + 1 => (Agent.perform ⟨⟨5⟩, .manager lenient, true⟩ teamBackend (.observe "alice" (chatter n) none .tool)
      ((pestered n).given (.at 1 'a'))).2

theorem pestered_run (n : Nat) : FaultyRun ⟨⟨5⟩, .manager lenient, true⟩ (pestered n) := by
  induction n with
  | zero => exact .nil
  | succ n ih =>
    rw [pestered]
    exact .step ih teamBackend (.observe "alice" (chatter n) none .tool) (.at 1 'a') (Prog.reaches_run _ _)

theorem strip_chatter (n : Nat) : Text.strip (chatter n) = chatter n := by
  have hx : Text.isSpace 'x' = false := by decide
  unfold Text.strip chatter
  rw [String.toList_ofList, List.replicate_succ, List.dropWhile_cons_of_neg (by simp [hx]), ← List.replicate_succ,
    List.reverse_replicate, List.replicate_succ, List.dropWhile_cons_of_neg (by simp [hx]), ← List.replicate_succ,
    List.reverse_replicate]

theorem chatter_ne (n : Nat) : chatter n ≠ "" := by
  intro h
  have hlen := congrArg (fun s => s.toList.length) h
  simp [chatter] at hlen

/-- Each text is kept under a key of its own. -/
theorem quarantineKey_chatter_inj {m n : Nat}
    (h : InjectionGate.quarantineKey 1 (chatter m) = InjectionGate.quarantineKey 1 (chatter n)) : m = n := by
  have hkey : ∀ text, InjectionGate.quarantineKey 1 text = "t" ++ toString 1 ++ ":" ++ ("#" ++ text) := fun _ => rfl
  rw [hkey, hkey] at h
  have hlen := congrArg (fun s => s.toList.length) h
  simp [chatter, String.toList_append] at hlen
  omega

theorem pestered_succ (n : Nat) : ∃ value, pestered (n + 1) =
    ((pestered n).given (.at 1 'a')).tick.tick.put (.quarantine "alice")
    (InjectionGate.quarantineKey 1 (chatter n)) value := by
  have hblocked : (lenient.gate.inspect (chatter n) .tool).allowed = false :=
    InjectionGate.inspect_untrusted _ _ (by decide)
  set verdict := lenient.gate.inspect (chatter n) .tool
  refine ⟨⟨chatter n, verdict.source, verdict.decision, verdict.reason, verdict.markers, none, 1⟩, ?_⟩
  rw [pestered]
  simp only [perform_observe]
  unfold MemoryManager.apply
  rw [strip_chatter, if_neg (chatter_ne n), if_pos (show ¬ _ from fun h => by rw [hblocked] at h; cases h)]
  rfl

theorem pestered_keys (n : Nat) : ((pestered n).store (.quarantine "alice")).keys =
    (List.range n).map (fun i => InjectionGate.quarantineKey 1 (chatter i)) := by
  induction n with
  | zero => rfl
  | succ n ih =>
    obtain ⟨value, hvalue⟩ := pestered_succ n
    have hnew : InjectionGate.quarantineKey 1 (chatter n) ∉ ((pestered n).store (.quarantine "alice")).keys := by
      rw [ih]
      intro hmem
      obtain ⟨i, hi, hkey⟩ := List.mem_map.1 hmem
      obtain rfl := quarantineKey_chatter_inj hkey
      exact List.not_mem_range_self hi
    rw [hvalue, store_put_self, Dict.keys_set]
    show (if _ ∈ ((pestered n).store (.quarantine "alice")).keys then _ else
      ((pestered n).store (.quarantine "alice")).keys ++ _) = _
    rw [if_neg hnew, ih, List.range_succ, List.map_append]
    rfl

theorem pestered_size (n : Nat) : ((pestered n).store (.quarantine "alice")).size = n := by
  rw [Dict.size_eq_keys, pestered_keys, List.length_map, List.length_range]

/-- What the endpoint shows of them, and what `forget_user` deletes. -/
theorem pestered_shown (n : Nat) :
    ∃ items report w', exec teamBackend (Agent.quarantineRoute "alice") (pestered n) =
        (.ok (.quarantine "alice" (min 100 n) items), pestered n) ∧
      Agent.perform ⟨⟨5⟩, .manager lenient, true⟩ teamBackend (.forgetUser "alice")
        ((pestered n).given (.at 2 'b')) = (.ok (.forgot report), w') ∧ report.quarantineDeleted = n := by
  have hsize := pestered_size n
  have hwalk := (teamBackend.walk_perm (.quarantine "alice") ((pestered n).store (.quarantine "alice"))).length_eq
  have hroute := exec_quarantineRoute teamBackend "alice" (pestered n)
  unfold Dict.size at hsize
  rw [List.length_take, hwalk, hsize] at hroute
  exact ⟨_, _, _, hroute, exec_forgetUser_accounted _ _ _ _ (pestered_run n).accounted, hsize⟩

/-- Of 101 blocked texts the endpoint shows 100, and `forget_user` deletes 101. -/
theorem inspection_cut :
    FaultyRun ⟨⟨5⟩, .manager lenient, true⟩ (pestered 101) ∧
      ∃ items report w', exec teamBackend (Agent.quarantineRoute "alice") (pestered 101) =
          (.ok (.quarantine "alice" 100 items), pestered 101) ∧
        Agent.perform ⟨⟨5⟩, .manager lenient, true⟩ teamBackend (.forgetUser "alice")
          ((pestered 101).given (.at 2 'b')) = (.ok (.forgot report), w') ∧ report.quarantineDeleted = 101 :=
  ⟨pestered_run 101, pestered_shown 101⟩

/-- After three, all agree. -/
theorem inspection_iff_three :
    ∃ total active listed count items report w₁ w₂ w₃,
      exec teamBackend (Agent.listMemoriesRoute "alice" true) ((pestered 3).given (.at 2 'b')) =
        (.ok (.memories "alice" total active listed), w₁) ∧
      exec teamBackend (Agent.quarantineRoute "alice") ((pestered 3).given (.at 2 'b')) =
        (.ok (.quarantine "alice" count items), w₂) ∧
      Agent.perform ⟨⟨5⟩, .manager lenient, true⟩ teamBackend (.forgetUser "alice")
        ((pestered 3).given (.at 2 'b')) = (.ok (.forgot report), w₃) ∧
      count = report.quarantineDeleted ∧ items.Perm ((pestered 3).store (.quarantine "alice")).values := by
  obtain ⟨total, active, listed, count, items, report, w₁, w₂, w₃, hlist, hheld, hforgot, hiff⟩ :=
    inspection_iff (pestered_run 3) teamBackend (.at 2 'b') "alice"
  obtain ⟨-, -, hcount, hitems⟩ := hiff.2 ⟨by decide +kernel, by rw [pestered_size]; decide⟩
  exact ⟨total, active, listed, count, items, report, w₁, w₂, w₃, hlist, hheld, hforgot, hcount, hitems⟩

end Engram
