import Engram.Runs
/-!
# Recall

`recall` filters a page of three times the results it wants. The plain
definition filters the whole ranking.
-/

namespace Engram

open MemoryReader Text

variable [Host]

/-! ## A page and the whole -/

omit [Host] in
/-- Taking `n` before filtering makes no difference to the first `k`, if the page
has `k` of them or the rest has none, and only then. -/
theorem take_filter_take {α β : Type} (p : α → Bool) (f : α → β) (l : List α) (n k : Nat) :
    (((l.take n).filter p).take k).map f = ((l.filter p).take k).map f ↔
      k ≤ (l.take n).countP p ∨ ∀ x ∈ l.drop n, ¬ p x := by
  have hsplit : l.filter p = (l.take n).filter p ++ (l.drop n).filter p := by
    rw [← List.filter_append, List.take_append_drop]
  have hrest : ((l.drop n).filter p = []) ↔ ∀ x ∈ l.drop n, ¬ p x := List.filter_eq_nil_iff
  rw [hsplit, List.take_append, List.map_append, List.self_eq_append_right, List.map_eq_nil_iff, List.take_eq_nil_iff,
    ← List.countP_eq_length_filter, hrest, Nat.sub_eq_zero_iff_le]

/-! ## The loop -/

/-- What `limit` and `top_k` come to. -/
def MemoryReader.wanted (r : MemoryReader) : Option Nat → Nat
  | some (n + 1) => n + 1
  | _ => r.topK

/-- The store's ranking of all records of `u`. -/
def ranking (S : Services) (u query : String) (w : World) : List (SearchItem Memory) :=
  S.rank (.memories u) query (w.mem u)

/-- The first `k` active items of a ranking. -/
def firstActive (k : Nat) (now : Time) (ranking : List (SearchItem Memory)) : List Recall :=
  ((ranking.filter (fun item => item.value.isActive now)).take k).map (fun item => ⟨item.value, item.score.getD 0⟩)

theorem isActiveNow_some (m : Memory) (t : Time) : isActiveNow m (some t) = pure (m.isActive t) := by
  unfold isActiveNow Memory.isActive
  split
  · rfl
  · cases m.expiresAt <;> rfl

theorem exec_recallFrom (S : Services) {k : Nat} (t : Time) (items : List (SearchItem Memory)) {acc : List Recall}
    (w : World) (hk : acc.length < k) :
    exec S (recallFrom k (some t) items acc) w = (.ok (acc ++ firstActive (k - acc.length) t items), w) := by
  induction items generalizing acc with
  | nil => simp [recallFrom, firstActive]
  | cons item items ih =>
    unfold recallFrom
    rw [isActiveNow_some, pure_bind]
    by_cases ha : item.value.isActive t
    · simp only [ha, not_true, if_false]
      have hone : firstActive (k - acc.length) t (item :: items) =
          ⟨item.value, item.score.getD 0⟩ :: firstActive (k - acc.length - 1) t items := by
        obtain ⟨j, hj⟩ : ∃ j, k - acc.length = j + 1 := ⟨k - acc.length - 1, by omega⟩
        rw [hj]
        simp [firstActive, ha]
      have hlen : (acc ++ [(⟨item.value, item.score.getD 0⟩ : Recall)]).length = acc.length + 1 := by simp
      rw [hlen, hone]
      by_cases hfull : acc.length + 1 = k
      · have hzero : k - acc.length - 1 = 0 := by omega
        rw [if_pos hfull, exec_pure, hzero]
        rfl
      · rw [if_neg hfull, ih (by rw [hlen]; omega), hlen, List.append_assoc, Nat.sub_add_eq]
        rfl
    · rw [if_pos ha, ih hk]
      simp [firstActive, ha]

/-- `recall` at a given time, on a query with text. -/
theorem exec_recallFor (S : Services) (r : MemoryReader) (u query : String) (limit : Option Nat) (t : Time) (w : World)
    (hq : strip query ≠ "") :
    exec S (r.recallFor u query limit (some t)) w =
      (.ok (firstActive (r.wanted limit) t ((ranking S u query w).take (r.wanted limit * overfetch))), w) := by
  have hunfold : r.recallFor u query limit (some t) =
      storeSearch (.memories u) (some query) (r.wanted limit * overfetch) 0 >>=
        fun items => recallFrom (r.wanted limit) (some t) items [] := by
    unfold recallFor
    exact if_neg hq
  rw [hunfold, exec_searchMemories, List.drop_zero]
  rcases Nat.eq_zero_or_pos (r.wanted limit) with hzero | hpos
  · rw [hzero]
    rfl
  · exact exec_recallFrom S t _ w hpos

/-! ## Against the plain definition -/

/-- `recall` gives the first active records of the whole ranking exactly if its
page holds as many as it wants, or all there are. The plain definition gives as
many as there are, up to that. -/
theorem recall_firstActive_iff (S : Services) (r : MemoryReader) (u query : String) (limit : Option Nat) (t : Time)
    (w : World) (hq : strip query ≠ "")
    (hall : ((ranking S u query w).map (fun item => (item.key, item.value))).Perm (w.mem u).entries) :
    (exec S (r.recallFor u query limit (some t)) w =
        (.ok (firstActive (r.wanted limit) t (ranking S u query w)), w) ↔
      r.wanted limit ≤ ((ranking S u query w).take (r.wanted limit * overfetch)).countP (·.value.isActive t) ∨
        ∀ item ∈ (ranking S u query w).drop (r.wanted limit * overfetch), ¬ item.value.isActive t) ∧
    (firstActive (r.wanted limit) t (ranking S u query w)).length =
      min (r.wanted limit) ((w.mem u).values.countP (·.isActive t)) := by
  refine ⟨?_, ?_⟩
  · rw [exec_recallFor S r u query limit t w hq]
    simp only [Prod.mk.injEq, Except.ok.injEq, and_true]
    exact take_filter_take (fun item : SearchItem Memory => item.value.isActive t) _ _ _ _
  · have hcount : (ranking S u query w).countP (fun item => item.value.isActive t) =
        (w.mem u).values.countP (·.isActive t) := by
      have hperm := (hall.map Prod.snd).countP_eq (·.isActive t)
      rw [List.map_map, List.countP_map] at hperm
      exact hperm
    rw [firstActive, List.length_map, List.length_take, ← List.countP_eq_length_filter, hcount]

end Engram

/-! ## A user who moved three times -/

namespace Engram

attribute [local instance] ascii

/-- The user names the `n`-th team at time `n`. -/
def joinTeam (w : World) (n : Nat) : World :=
  (Agent.perform ⟨⟨1⟩, .manager lenient, true⟩ teamBackend
    (.observe "alice" (String.ofList (.replicate n 'x')) none .user) (w.given (.at n (Char.ofNat (96 + n))))).2

def movedThrice : World := [1, 2, 3, 4].foldl joinTeam Backend.empty

/-- The three retired records fill the page, and the live one is not recalled. -/
theorem recall_starved :
    exec teamBackend (MemoryReader.recallFor ⟨1⟩ "alice" "team" none (some 5)) movedThrice ≠
      (.ok (firstActive 1 5 (ranking teamBackend "alice" "team" movedThrice)), movedThrice) := by
  intro h
  have hlen := congrArg (fun r => r.1.toOption.map List.length) h
  revert hlen
  decide +kernel

/-- With two wanted, the page of six holds all records. -/
theorem recall_firstActive_iff_two :
    exec teamBackend (MemoryReader.recallFor ⟨1⟩ "alice" "team" (some 2) (some 5)) movedThrice =
      (.ok (firstActive 2 5 (ranking teamBackend "alice" "team" movedThrice)), movedThrice) := by
  have hperm : ((ranking teamBackend "alice" "team" movedThrice).map
      (fun item => (item.key, item.value))).Perm (movedThrice.mem "alice").entries := by
    show (((movedThrice.mem "alice").entries.map (fun e => (⟨e.1, e.2, none⟩ : SearchItem Memory))).map _).Perm _
    rw [List.map_map]
    exact .of_eq (List.map_id _)
  refine (recall_firstActive_iff teamBackend ⟨1⟩ "alice" "team" (some 2) 5 movedThrice (by decide +kernel) hperm).1.2
    (.inr ?_)
  have hshort : (ranking teamBackend "alice" "team" movedThrice).drop 6 = [] := by
    rw [← List.length_eq_zero_iff]
    decide +kernel
  show ∀ item ∈ (ranking teamBackend "alice" "team" movedThrice).drop 6, _
  rw [hshort]
  simp

end Engram
