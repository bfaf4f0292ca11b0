import Engram.Lib.Ranking
import Engram.Noninterference
import Engram.Turn
/-!
# Near-duplicates

The resolver looks for a near-duplicate among the ten records the store ranks
first. The store ranks retired records, too, and goes by the slot as well as by
the text. So the resolver finds what a comparison with all live records would
find, unless ten others rank ahead of it (`nearest_agrees_iff`).
-/

namespace Engram

open MemoryManager Backend Text

variable [Host]

/-! ## What the store ranks by -/

/-- `Memory.slot_text`. -/
def Memory.slotText (m : Memory) : String :=
  if m.attr = "" then "" else strip (m.attr.map (fun c => if c = '_' then ' ' else c) ++ " " ++ m.value)

/-- How close `text` is to the query, by their embeddings. -/
def similarity (S : Services) (query text : String) : Rat := cosine (S.embed query) (S.embed text)

/-- Of the two fields in the index; `to_value` leaves out an empty `slot_text`. -/
def bestSimilarity (S : Services) (query : String) (m : Memory) : Rat :=
  if m.slotText = "" then similarity S query m.text
  else max (similarity S query m.text) (similarity S query m.slotText)

/-- The store ranks the records of a user by their best similarity, equal ones in
the order in which they were stored. -/
def Services.RanksBySimilarity (S : Services) : Prop := ∀ u query (d : Dict String Memory),
  (S.rank (.memories u) query d).map (fun item => (item.key, item.value)) =
    Ranking.ranked (fun e => bestSimilarity S query e.2) d.entries

/-- How many records of `d` rank ahead of `m`: those with a higher best
similarity, and those with the same that were stored earlier. -/
def outranking (S : Services) (query : String) (d : Dict String Memory) (m : Memory) : Nat :=
  Ranking.ahead (fun e => bestSimilarity S query e.2) (fun e => e.1 = m.id) (bestSimilarity S query m) d.entries

/-! ## The candidates for a duplicate -/

section Candidates
variable {S : Services} {u text : String} {existing : List Memory} {w : World} {m : Memory}

omit [Host] in
theorem live_eq_some_iff (hnd : (existing.map (·.id)).Nodup) {key : String} :
    live existing key = some m ↔ m ∈ existing ∧ m.id = key := by
  constructor
  · intro h
    exact ⟨live_mem h, by simpa using List.find?_some h⟩
  · rintro ⟨hm, rfl⟩
    cases h : live existing m.id with
    | none =>
      have := List.find?_eq_none.1 h m (List.mem_reverse.2 hm)
      simp at this
    | some n =>
      have hid : n.id = m.id := by simpa using List.find?_some h
      rw [List.inj_on_of_nodup_map hnd (live_mem h) hm hid]

/-- A record of the working list is ranked among the first `n` if fewer than `n` rank ahead of it. -/
theorem key_mem_take_rank (hS : S.RanksBySimilarity) (hmirror : Mirror u existing w) (hm : m ∈ existing) (n : Nat) :
    (∃ item ∈ (S.rank (.memories u) text (w.mem u)).take n, item.key = m.id) ↔ outranking S text (w.mem u) m < n := by
  have hentry : (m.id, m) ∈ (w.mem u).entries := Dict.get_eq_some_iff.1 (hmirror.stored m hm)
  have huniq : ∀ e ∈ (w.mem u).entries, e.1 = m.id → e = (m.id, m) := by
    rintro ⟨k, n⟩ he rfl
    have hget := hmirror.stored m hm
    rw [Dict.get_eq_some_iff.2 he] at hget
    cases hget
    rfl
  unfold outranking
  rw [← Ranking.mem_take_ranked (x := (m.id, m)) (.of_map _ (w.mem u).nodup) hentry (decide_eq_true rfl)
    (fun e he h => huniq e he (of_decide_eq_true h)), ← hS u text, ← List.map_take, List.mem_map]
  constructor
  · rintro ⟨item, hitem, hkey⟩
    have hmem := S.rank_mem (.memories u) text (w.mem u) item (List.mem_of_mem_take hitem)
    exact ⟨item, hitem, huniq _ hmem hkey⟩
  · rintro ⟨item, hitem, he⟩
    exact ⟨item, hitem, congrArg Prod.fst he⟩

theorem mem_candidates_iff (hS : S.RanksBySimilarity) (hmirror : Mirror u existing w) (n : Nat) :
    m ∈ ((S.rank (.memories u) text (w.mem u)).take n).filterMap (fun item => live existing item.key) ↔
      m ∈ existing ∧ outranking S text (w.mem u) m < n := by
  rw [List.mem_filterMap]
  constructor
  · rintro ⟨item, hitem, hlive⟩
    obtain ⟨hm, hid⟩ := (live_eq_some_iff hmirror.nodup).1 hlive
    exact ⟨hm, (key_mem_take_rank hS hmirror hm n).1 ⟨item, hitem, hid.symm⟩⟩
  · rintro ⟨hm, hahead⟩
    obtain ⟨item, hitem, hkey⟩ := (key_mem_take_rank hS hmirror hm n).2 hahead
    exact ⟨item, hitem, (live_eq_some_iff hmirror.nodup).2 ⟨hm, hkey.symm⟩⟩

/-- The best of some records and of the best so far. -/
theorem exec_closest_best (text : String) (ms : List Memory) (best : Option Memory × Rat) (hw : w.Sound S) :
    ∃ best' w', exec S (closest (S.embed text) ms best) w = (.ok best', w') ∧ best.2 ≤ best'.2 ∧
      (∀ m ∈ ms, similarity S text m.text ≤ best'.2) ∧
      (best' = best ∨ ∃ m ∈ ms, best' = (some m, similarity S text m.text)) := by
  induction ms generalizing best w with
  | nil => exact ⟨best, w, rfl, le_refl _, by simp, .inl rfl⟩
  | cons a ms ih =>
    obtain ⟨hvec, hsound⟩ := hw.embed a.text
    obtain ⟨best', w', hrun, hle, hall, hor⟩ :=
      ih (if best.2 < similarity S text a.text then (some a, similarity S text a.text) else best) hsound
    refine ⟨best', w', ?_, ?_, ?_, ?_⟩
    · rw [closest, exec_embed, hvec]
      exact hrun
    · split at hle
      · next hlt => exact hlt.le.trans hle
      · exact hle
    · intro m hm
      rcases List.mem_cons.1 hm with rfl | hm
      · split at hle
        · exact hle
        · next hlt => exact (not_lt.1 hlt).trans hle
      · exact hall m hm
    · rcases hor with hor | ⟨m, hm, hbest⟩
      · split at hor
        · exact .inr ⟨a, List.mem_cons_self, hor⟩
        · exact .inl hor
      · exact .inr ⟨m, List.mem_cons_of_mem a hm, hbest⟩

/-- `_nearest` once it has its candidates. -/
def closestEnough (mm : MemoryManager) (text : String) (candidates : List Memory) : Act (Option Memory) :=
  if candidates = [] then return none
  else do
    let query ← embed text
    let best ← closest query candidates (none, 0)
    return if mm.dedupeSimilarity ≤ best.2 then best.1 else none

theorem exec_nearest_cons (mm : MemoryManager) (text : String) (first : Memory) (rest : List Memory) (w : World) :
    exec S (mm.nearest text (first :: rest)) w = exec S (closestEnough mm text
      (((S.rank (.memories first.userId) text (w.mem first.userId)).take dedupeCandidates).filterMap
        (fun item => live (first :: rest) item.key))) w := rfl

/-- With a positive threshold: the closest of the candidates, if that is close enough. -/
theorem exec_closestEnough {mm : MemoryManager} (hθ : 0 < mm.dedupeSimilarity) (text : String)
    (candidates : List Memory) (hw : w.Sound S) :
    ∃ near w', exec S (closestEnough mm text candidates) w = (.ok near, w') ∧
      (∀ m, near = some m → m ∈ candidates ∧ mm.dedupeSimilarity ≤ similarity S text m.text ∧
        ∀ m' ∈ candidates, similarity S text m'.text ≤ similarity S text m.text) ∧
      (near = none → ∀ m ∈ candidates, similarity S text m.text < mm.dedupeSimilarity) := by
  unfold closestEnough
  by_cases hnil : candidates = []
  · subst hnil
    exact ⟨none, w, rfl, by simp, by simp⟩
  · obtain ⟨hvec, hsound⟩ := hw.embed text
    obtain ⟨best, w', hclosest, -, hall, hbest⟩ := exec_closest_best text candidates (none, 0) hsound
    refine ⟨if mm.dedupeSimilarity ≤ best.2 then best.1 else none, w', ?_, fun m hm => ?_, fun hnone m hm => ?_⟩
    · rw [if_neg hnil, exec_embed, hvec, exec_bind_of_ok S _ hclosest, exec_pure]
    · split at hm
      · next hle =>
        rcases hbest with rfl | ⟨n, hn, rfl⟩
        · cases hm
        · cases hm
          exact ⟨hn, hle, hall⟩
      · cases hm
    · split at hnone
      · next hle =>
        -- The best so far starts at 0, below the threshold.
        rcases hbest with rfl | ⟨n, hn, rfl⟩
        · exact absurd hle (not_le_of_gt hθ)
        · cases hnone
      · next hlt => exact (hall m hm).trans_lt (not_le.1 hlt)

/-- What `_nearest` returns: the closest of the working list's records with fewer
than ten ahead of them, if that is close enough. -/
theorem nearest_spec (hS : S.RanksBySimilarity) {mm : MemoryManager} (hθ : 0 < mm.dedupeSimilarity) (text : String)
    (hw : w.Sound S) (hk : w.Keyed) (hmirror : Mirror u existing w) :
    ∃ near w', exec S (mm.nearest text existing) w = (.ok near, w') ∧
      (∀ m, near = some m → (m ∈ existing ∧ outranking S text (w.mem u) m < dedupeCandidates) ∧
        mm.dedupeSimilarity ≤ similarity S text m.text ∧
        ∀ m', m' ∈ existing ∧ outranking S text (w.mem u) m' < dedupeCandidates →
          similarity S text m'.text ≤ similarity S text m.text) ∧
      (near = none → ∀ m, m ∈ existing ∧ outranking S text (w.mem u) m < dedupeCandidates →
        similarity S text m.text < mm.dedupeSimilarity) := by
  cases existing with
  | nil => exact ⟨none, w, rfl, by simp, by simp⟩
  | cons first rest =>
    obtain rfl : first.userId = u := hmirror.userId hk first List.mem_cons_self
    simp only [← mem_candidates_iff hS hmirror dedupeCandidates, exec_nearest_cons]
    exact exec_closestEnough hθ text _ hw

end Candidates

/-! ## Agreement with the full scan -/

section Agreement
variable (S : Services) (mm : MemoryManager) (text : String) (existing : List Memory) (w : World)

/-- `_nearest` returns a record if one of the working list is close enough, then
a closest one; and the resolver stores no candidate that restates it. -/
structure DedupeAgrees (u : String) : Prop where
  finds : ∃ near w', exec S (mm.nearest text existing) w = (.ok near, w') ∧
    (near.isSome ↔ ∃ m ∈ existing, mm.dedupeSimilarity ≤ similarity S text m.text) ∧
    ∀ m, near = some m → m ∈ existing ∧ ∀ m' ∈ existing, similarity S text m'.text ≤ similarity S text m.text
  once : ∀ (c : CandidateFact) threadId source, c.attr = "" → c.text = text →
    (∃ m ∈ existing, mm.dedupeSimilarity ≤ similarity S text m.text) →
    ∃ decision existing' w', exec S (resolve mm c existing u threadId source) w = (.ok (decision, none, existing'), w')

end Agreement

/-- The narrowed search agrees with the full scan if and only if, where a record
of the working list is close enough, fewer than ten rank ahead of a closest one. -/
theorem nearest_agrees_iff {S : Services} (hS : S.RanksBySimilarity) {mm : MemoryManager}
    (hθ : 0 < mm.dedupeSimilarity) (text : String) {u : String} {existing : List Memory} {w : World} (hw : w.Sound S)
    (hk : w.Keyed) (hmirror : Mirror u existing w) :
    DedupeAgrees S mm text existing w u ↔
      ((∃ m ∈ existing, mm.dedupeSimilarity ≤ similarity S text m.text) →
        ∃ m ∈ existing, (∀ m' ∈ existing, similarity S text m'.text ≤ similarity S text m.text) ∧
          outranking S text (w.mem u) m < dedupeCandidates) := by
  obtain ⟨near, w', hrun, hsome, hnone⟩ := nearest_spec hS hθ text hw hk hmirror
  constructor
  · -- What is returned was among the ten, and it is a closest one.
    rintro ⟨⟨near', w'', hrun', hiff, hgreatest⟩, -⟩ hclose
    rw [hrun] at hrun'
    cases hrun'
    obtain ⟨m, rfl⟩ := Option.isSome_iff_exists.1 (hiff.2 hclose)
    obtain ⟨hm, hmax⟩ := hgreatest m rfl
    exact ⟨m, hm, hmax, (hsome m rfl).1.2⟩
  · intro hcond
    have hfound : (∃ m ∈ existing, mm.dedupeSimilarity ≤ similarity S text m.text) → ∃ m, near = some m := by
      rintro ⟨m, hm, hle⟩
      obtain ⟨n, hn, hmax, hahead⟩ := hcond ⟨m, hm, hle⟩
      rw [← Option.ne_none_iff_exists']
      intro h
      exact absurd (hle.trans (hmax m hm)) (not_le_of_gt (hnone h n ⟨hn, hahead⟩))
    refine ⟨⟨near, w', hrun, ⟨fun h => ?_, fun h => ?_⟩, fun m hm => ⟨(hsome m hm).1.1, fun m' hm' => ?_⟩⟩, ?_⟩
    · obtain ⟨m, rfl⟩ := Option.isSome_iff_exists.1 h
      exact ⟨m, (hsome m rfl).1.1, (hsome m rfl).2.1⟩
    · exact Option.isSome_iff_exists.2 (hfound h)
    · obtain ⟨n, hn, hmax, hahead⟩ := hcond ⟨m, (hsome m hm).1.1, (hsome m hm).2.1⟩
      exact (hmax m' hm').trans ((hsome m hm).2.2 n ⟨hn, hahead⟩)
    · intro c threadId source hattr hc hclose
      obtain ⟨m, rfl⟩ := hfound hclose
      have hm := (hsome m rfl).1.1
      rw [resolve, if_neg (not_not.2 hattr), hc, exec_bind_of_ok S w hrun]
      dsimp only
      rw [exec_bind_of_ok S w' (exec_reinforce S m (hmirror.userId hk m hm)), exec_pure]
      exact ⟨_, _, _, rfl⟩

end Engram

/-! ## Eleven days on call -/

namespace Engram

open MemoryManager Backend

attribute [local instance] ascii

/-- Where all texts are embedded alike, the ranking is the order of storing. -/
theorem ranksBySimilarity_const (extract : String → List CandidateFact) (v : Vec)
    (invoke : List Message → Option String) : Services.RanksBySimilarity (.inMemory extract (fun _ => v) invoke) := by
  intro u query d
  have hconst : ∀ m : Memory, bestSimilarity (Components.inMemory extract (fun _ => v) invoke) query m =
      cosine v v := by
    intro m
    unfold bestSimilarity similarity
    split
    · rfl
    · exact max_self _
  rw [Ranking.ranked_of_pairwise]
  · exact (List.map_map ..).trans (List.map_id d.entries)
  · exact List.pairwise_of_forall (fun a b => by rw [hconst, hconst])

/-- A backend whose extractor takes every text for being on call for a day. -/
def onCallBackend : Services :=
  .inMemory (fun _ => [⟨"on call", by decide, "", "", "", .episodic, .half, some ⟨1, Nat.one_pos⟩⟩]) (fun _ _ => 1)
    (fun _ => some "ok")

/-- After the user was on call on `n` days, every other day. -/
def onCall : Nat → World
  | 0 => Backend.empty
  | n + 1 => (Agent.perform ⟨⟨5⟩, .manager lenient, true⟩ onCallBackend (.observe "alice" "on call today" none .user)
      ((onCall n).given (.at (2 * (n + 1) * day) (Char.ofNat (97 + n))))).2

/-- On the last of `n` such days, the user is about to say so again. -/
def onCallAgain (n : Nat) : World := (onCall n).given (.at (2 * n * day + 1) 'z')

/-- One record is live, and those of the days before have lapsed. -/
def stillOnCall (n : Nat) : List Memory :=
  ((onCallAgain n).mem "alice").values.filter (fun m => m.isActive (2 * n * day + 1))

theorem onCall_run {n : Nat} (hn : n ≤ 11) :
    Run ⟨⟨5⟩, .manager lenient, true⟩ (fun _ _ _ => True) Backend.empty (onCall n) ∧
      (onCall n).Stamped (2 * n * day) ((List.range n).reverse.map (fun k => Char.ofNat (97 + k))) := by
  induction n with
  | zero => exact ⟨.nil, Stamped.empty⟩
  | succ n ih =>
    obtain ⟨hrun, hstamped⟩ := ih (by omega)
    have hfresh : ∀ n < 11, Char.ofNat (97 + n) ∉ (List.range n).reverse.map (fun k => Char.ofNat (97 + k)) := by decide
    have hle : 2 * n * day ≤ 2 * (n + 1) * day := Nat.mul_le_mul_right day (by omega)
    refine ⟨.step hrun onCallBackend _ _ (hstamped.valid hle (hfresh n (by omega))) trivial, ?_⟩
    rw [List.range_succ, List.reverse_append]
    exact hstamped.perform hle _ _ onCallBackend _

theorem onCallAgain_sound (n : Nat) : (onCallAgain n).Sound onCallBackend := by
  show (onCall n).Sound onCallBackend
  induction n with
  | zero => exact sound_empty onCallBackend
  | succ n ih =>
    exact Prog.run_inv (handle onCallBackend) (I := Backend.Sound onCallBackend) (fun i _ h => h.handle i) _ ih

theorem onCallAgain_keyed {n : Nat} (hn : n ≤ 11) : (onCallAgain n).Keyed :=
  ((onCall_run hn).1.inv Keyed keyed_empty (fun S op i _ hI _ _ => (hI.given i).perform _ S op)).given _

theorem onCallBackend_ranks : onCallBackend.RanksBySimilarity := ranksBySimilarity_const _ _ _

/-- Ten lapsed records hide the live one, so that nothing is found. -/
theorem nearest_misses : onCallBackend.RanksBySimilarity ∧ 0 < lenient.dedupeSimilarity ∧
    (onCallAgain 11).Sound onCallBackend ∧ (onCallAgain 11).Keyed ∧ Mirror "alice" (stillOnCall 11) (onCallAgain 11) ∧
    ¬ DedupeAgrees onCallBackend lenient "on call" (stillOnCall 11) (onCallAgain 11) "alice" := by
  refine ⟨onCallBackend_ranks, by decide +kernel, onCallAgain_sound 11, onCallAgain_keyed (le_refl 11),
    ⟨by decide +kernel, by decide +kernel, by decide +kernel⟩, ?_⟩
  rintro ⟨⟨near, w', hrun, hiff, -⟩, -⟩
  have hnone : (exec onCallBackend (lenient.nearest "on call" (stillOnCall 11)) (onCallAgain 11)).1.toOption =
      some none := by decide +kernel
  have hclose : ∃ m ∈ stillOnCall 11, lenient.dedupeSimilarity ≤ similarity onCallBackend "on call" m.text := by
    decide +kernel
  rw [hrun] at hnone
  cases hnone
  exact absurd (hiff.2 hclose) (by decide)

/-- Nine do not. -/
theorem nearest_agrees_iff_nine :
    DedupeAgrees onCallBackend lenient "on call" (stillOnCall 10) (onCallAgain 10) "alice" :=
  (nearest_agrees_iff onCallBackend_ranks (by decide +kernel) "on call" (onCallAgain_sound 10)
    (onCallAgain_keyed (by decide)) ⟨by decide +kernel, by decide +kernel, by decide +kernel⟩).2
    (fun _ => by decide +kernel)

end Engram
