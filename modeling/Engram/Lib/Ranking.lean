import Mathlib.Data.List.Sort
import Mathlib.Order.Defs.LinearOrder
/-!
# Ranking by a score

`ranked` puts a list in the order of falling scores, and elements of one score
stay in the order they had. So the place of an element is the number of those
ahead of it, which can be counted without ranking anything (`mem_take_ranked`).
-/

namespace Ranking

variable {α β : Type} [LinearOrder β] (score : α → β)

/-- By falling score, ties in the order of the list. -/
def ranked (l : List α) : List α := l.mergeSort (fun a b => score b ≤ score a)

/-- How many elements rank ahead of the first one with `p`, if that has the score `s`. -/
def ahead (p : α → Bool) (s : β) (l : List α) : Nat :=
  (l.takeWhile (fun a => !p a)).countP (fun a => s ≤ score a) +
    (l.dropWhile (fun a => !p a)).countP (fun a => s < score a)

section Split
variable {l l₁ l₂ : List α} {x y : α}

/-- What stands before `x` in a list without duplicates. -/
theorem mem_of_before (hnd : (l₁ ++ x :: l₂).Nodup) (h : [y, x].Sublist (l₁ ++ x :: l₂)) : y ∈ l₁ := by
  obtain ⟨-, hnd₂, hdisj⟩ := List.nodup_append.1 hnd
  have hpair : (l₁ ++ x :: l₂).Pairwise (fun a b => b = x → a ∈ l₁) := by
    refine List.pairwise_append.2 ⟨?_, ?_, fun a ha _ _ _ => ha⟩
    · exact List.pairwise_of_forall_mem_list (fun a ha _ _ _ => ha)
    · refine List.pairwise_cons.2 ⟨fun b hb hbx => ?_, List.pairwise_of_forall_mem_list (fun a _ b hb hbx => ?_)⟩
      · exact absurd (hbx ▸ hb) (List.nodup_cons.1 hnd₂).1
      · exact absurd (hbx ▸ hb) (List.nodup_cons.1 hnd₂).1
  have := hpair.sublist h
  simpa using this

/-- What stands after it. -/
theorem mem_of_after (hnd : (l₁ ++ x :: l₂).Nodup) (h : [x, y].Sublist (l₁ ++ x :: l₂)) : y ∈ l₂ := by
  obtain ⟨-, hnd₂, hdisj⟩ := List.nodup_append.1 hnd
  have hpair : (l₁ ++ x :: l₂).Pairwise (fun a b => a = x → b ∈ l₂) := by
    refine List.pairwise_append.2 ⟨?_, ?_, fun a ha b hb hax => ?_⟩
    · refine List.pairwise_of_forall_mem_list (fun a ha b _ hax => ?_)
      exact absurd hax (hdisj a ha x List.mem_cons_self)
    · refine List.pairwise_cons.2 ⟨fun b hb _ => hb, List.pairwise_of_forall_mem_list (fun a _ b hb _ => hb)⟩
    · exact absurd hax (hdisj a ha x List.mem_cons_self)
  have := hpair.sublist h
  simpa using this

end Split

theorem ranked_perm (l : List α) : (ranked score l).Perm l := List.mergeSort_perm l _

section Order
variable {score}

theorem falling_trans {a b c : α} (hab : decide (score b ≤ score a) = true) (hbc : decide (score c ≤ score b) = true) :
    decide (score c ≤ score a) = true :=
  decide_eq_true ((of_decide_eq_true hbc).trans (of_decide_eq_true hab))

theorem falling_total (a b : α) : (decide (score b ≤ score a) || decide (score a ≤ score b)) = true := by
  simpa using le_total (score b) (score a)

end Order

theorem pairwise_ranked (l : List α) : (ranked score l).Pairwise (fun a b => score b ≤ score a) := by
  have h : (ranked score l).Pairwise (fun a b => decide (score b ≤ score a) = true) :=
    List.pairwise_mergeSort (fun _ _ _ => falling_trans) falling_total l
  exact h.imp of_decide_eq_true

/-- Two elements that need not change places keep theirs. -/
theorem pair_sublist_ranked {l : List α} {a b : α} (hab : score b ≤ score a) (h : [a, b].Sublist l) :
    [a, b].Sublist (ranked score l) := by
  have hle : decide (score b ≤ score a) = true := decide_eq_true hab
  exact List.pair_sublist_mergeSort (fun _ _ _ => falling_trans) falling_total hle h

/-- A list that is in order is ranked as it is. -/
theorem ranked_of_pairwise {l : List α} (h : l.Pairwise (fun a b => score b ≤ score a)) : ranked score l = l :=
  List.mergeSort_of_pairwise (h.imp decide_eq_true)

/-- Elements of one score keep their order. -/
theorem filter_ranked (l : List α) (s : β) :
    (ranked score l).filter (fun a => score a = s) = l.filter (fun a => score a = s) := by
  have hties : (l.filter (fun a => score a = s)).Pairwise (fun a b => decide (score b ≤ score a) = true) := by
    refine List.pairwise_of_forall_mem_list (fun a ha b hb => decide_eq_true ?_)
    have hab : score a = s ∧ score b = s := by simp_all
    rw [hab.1, hab.2]
  have hsub : (l.filter (fun a => score a = s)).Sublist (ranked score l) :=
    List.sublist_mergeSort (fun _ _ _ => falling_trans) falling_total hties List.filter_sublist
  have hsub' : (l.filter (fun a => score a = s)).Sublist ((ranked score l).filter (fun a => score a = s)) := by
    have h := hsub.filter (fun a => decide (score a = s))
    rwa [List.filter_filter, show (fun a => decide (score a = s) && decide (score a = s)) =
      fun a => decide (score a = s) by
      funext a; simp] at h
  exact (hsub'.eq_of_length ((ranked_perm score l).filter _).length_eq.symm).symm

variable {score}

/-- What is ranked before `x`: what has a higher score, and what has the same and stood before it. -/
theorem mem_before_iff {l₁ l₂ s₁ s₂ : List α} {x : α} (hnd : (l₁ ++ x :: l₂).Nodup)
    (hs : ranked score (l₁ ++ x :: l₂) = s₁ ++ x :: s₂) (y : α) :
    y ∈ s₁ ↔ (y ∈ l₁ ∧ score x ≤ score y) ∨ (y ∈ l₂ ∧ score x < score y) := by
  have hperm := ranked_perm score (l₁ ++ x :: l₂)
  have hsorted := pairwise_ranked score (l₁ ++ x :: l₂)
  have hsnd : (s₁ ++ x :: s₂).Nodup := by
    rw [← hs]
    exact hperm.nodup_iff.2 hnd
  have hmem : ∀ z, z ∈ s₁ ++ x :: s₂ ↔ z ∈ l₁ ++ x :: l₂ := fun z => by rw [← hs]; exact hperm.mem_iff
  rw [hs] at hsorted
  obtain ⟨-, hsorted₂, hcross⟩ := List.pairwise_append.1 hsorted
  have hdisj := (List.nodup_append.1 hsnd).2.2
  constructor
  · intro hy
    have hle : score x ≤ score y := hcross y hy x List.mem_cons_self
    have hyl := (hmem y).1 (List.mem_append_left _ hy)
    rcases List.mem_append.1 hyl with hy₁ | hy₂
    · exact .inl ⟨hy₁, hle⟩
    · rcases List.mem_cons.1 hy₂ with rfl | hy₂
      · exact absurd rfl (hdisj y hy y List.mem_cons_self)
      · -- At the same score it would have stayed behind.
        refine .inr ⟨hy₂, lt_of_not_ge (fun hge => ?_)⟩
        have hpair : [x, y].Sublist (l₁ ++ x :: l₂) :=
          ((List.singleton_sublist.2 hy₂).cons_cons x).trans (List.sublist_append_right l₁ _)
        have hafter := mem_of_after hsnd (hs ▸ pair_sublist_ranked score hge hpair)
        exact hdisj y hy y (List.mem_cons_of_mem x hafter) rfl
  · rintro (⟨hy, hle⟩ | ⟨hy, hlt⟩)
    · have hpair : [y, x].Sublist (l₁ ++ x :: l₂) :=
        (List.singleton_sublist.2 hy).append (List.singleton_sublist.2 List.mem_cons_self)
      exact mem_of_before hsnd (hs ▸ pair_sublist_ranked score hle hpair)
    · have hys := (hmem y).2 (List.mem_append_right _ (List.mem_cons_of_mem x hy))
      rcases List.mem_append.1 hys with hy₁ | hy₂
      · exact hy₁
      · rcases List.mem_cons.1 hy₂ with rfl | hy₂
        · exact absurd hlt (lt_irrefl _)
        · exact absurd (List.rel_of_pairwise_cons hsorted₂ hy₂) (not_le_of_gt hlt)

/-- As many are ahead of `x` as are ranked before it. -/
theorem ahead_eq {l₁ l₂ s₁ s₂ : List α} {p : α → Bool} {x : α} (hnd : (l₁ ++ x :: l₂).Nodup)
    (hs : ranked score (l₁ ++ x :: l₂) = s₁ ++ x :: s₂) (hp : p x = true) (hne : ∀ y ∈ l₁, (!p y) = true) :
    ahead score p (score x) (l₁ ++ x :: l₂) = s₁.length := by
  have hsnd : (s₁ ++ x :: s₂).Nodup := hs ▸ (ranked_perm score _).nodup_iff.2 hnd
  have hfilter : s₁.Perm (l₁.filter (fun a => score x ≤ score a) ++ l₂.filter (fun a => score x < score a)) := by
    have hsub : (l₁.filter (fun a => score x ≤ score a) ++ l₂.filter (fun a => score x < score a)).Sublist
        (l₁ ++ x :: l₂) :=
      List.filter_sublist.append (List.filter_sublist.trans (List.sublist_cons_self x l₂))
    refine (List.perm_ext_iff_of_nodup (List.nodup_append.1 hsnd).1 (hnd.sublist hsub)).2 (fun y => ?_)
    rw [mem_before_iff hnd hs]
    simp
  rw [ahead, List.takeWhile_append_of_pos hne, List.dropWhile_append_of_pos hne]
  simp [hp, hfilter.length_eq, List.countP_eq_length_filter]

/-- Among the first `n` is what has fewer than `n` ahead of it. -/
theorem mem_take_ranked {l : List α} {p : α → Bool} {x : α} (hnd : l.Nodup) (hx : x ∈ l) (hp : p x = true)
    (huniq : ∀ y ∈ l, p y = true → y = x) (n : Nat) :
    x ∈ (ranked score l).take n ↔ ahead score p (score x) l < n := by
  obtain ⟨l₁, l₂, rfl⟩ := List.append_of_mem hx
  obtain ⟨s₁, s₂, hs⟩ := List.append_of_mem ((ranked_perm score (l₁ ++ x :: l₂)).mem_iff.2 hx)
  have hsnd : (s₁ ++ x :: s₂).Nodup := hs ▸ (ranked_perm score _).nodup_iff.2 hnd
  have hx₁ : x ∉ s₁ := fun h => (List.nodup_append.1 hsnd).2.2 x h x List.mem_cons_self rfl
  have hxl : x ∉ l₁ := fun h => (List.nodup_append.1 hnd).2.2 x h x List.mem_cons_self rfl
  have hne : ∀ y ∈ l₁, (!p y) = true := by
    intro y hy
    rw [Bool.not_eq_true', Bool.eq_false_iff]
    intro hpy
    exact hxl (huniq y (List.mem_append_left _ hy) hpy ▸ hy)
  rw [ahead_eq hnd hs hp hne, hs, List.take_append]
  constructor
  · intro h
    rcases List.mem_append.1 h with h | h
    · exact absurd (List.mem_of_mem_take h) hx₁
    · by_contra hle
      rw [Nat.sub_eq_zero_of_le (not_lt.1 hle)] at h
      cases h
  · intro h
    obtain ⟨k, hk⟩ : ∃ k, n - s₁.length = k + 1 := ⟨n - s₁.length - 1, by omega⟩
    rw [hk, List.take_succ_cons]
    exact List.mem_append_right _ List.mem_cons_self

end Ranking
