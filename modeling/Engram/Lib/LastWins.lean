import Mathlib.Data.List.Basic
/-!
# Cells where the last statement wins

A cell holds elements with keys. It is told one element after the other: one
whose key it holds leaves it as it is, any other replaces all that it holds.
-/

namespace Cell

variable {β κ : Type} [DecidableEq κ] (k : β → κ)

def tell (held : List β) (x : β) : List β := if k x ∈ held.map k then held else [x]

def tellAll (held xs : List β) : List β := xs.foldl (tell k) held

/-- How often telling `xs` replaces what is held. -/
def replaced (held : List β) : List β → Nat
  | [] => 0
  | x :: xs => (if k x ∈ held.map k then 0 else 1) + replaced (tell k held x) xs

/-- The changes along a sequence of keys, `last` being the one before it if any. -/
def changes (last : Option κ) : List κ → Nat
  | [] => 0
  | k :: ks => (if last = some k then 0 else 1) + changes (some k) ks

/-- In a sequence from `y` on, the first of those at its end that all have one key. -/
def settled (y : β) : List β → β
  | [] => y
  | x :: xs => settled (if k x = k y then y else x) xs

variable {k}

theorem tell_of_held {held : List β} {x : β} (h : k x ∈ held.map k) : tell k held x = held := if_pos h

theorem tell_of_new {held : List β} {x : β} (h : k x ∉ held.map k) : tell k held x = [x] := if_neg h

theorem tellAll_append (held xs ys : List β) :
    tellAll k held (xs ++ ys) = tellAll k (tellAll k held xs) ys := List.foldl_append

theorem replaced_append (held xs ys : List β) :
    replaced k held (xs ++ ys) = replaced k held xs + replaced k (tellAll k held xs) ys := by
  induction xs generalizing held with
  | nil => simp [replaced, tellAll]
  | cons x xs ih =>
    rw [List.cons_append, replaced, replaced, ih, tellAll, tellAll, List.foldl_cons]
    omega

theorem replaced_singleton (held : List β) (x : β) :
    replaced k held [x] = if k x ∈ held.map k then 0 else 1 := Nat.add_zero _

/-! ## Restatements -/

theorem mem_tellAll {held xs : List β} {y : β} (h : y ∈ tellAll k held xs) : y ∈ held ∨ y ∈ xs := by
  induction xs generalizing held with
  | nil => exact .inl h
  | cons x xs ih =>
    rcases ih h with h | h
    · unfold tell at h
      split at h
      · exact .inl h
      · exact .inr (List.mem_singleton.1 h ▸ List.mem_cons_self)
    · exact .inr (List.mem_cons_of_mem _ h)

theorem length_tellAll {held : List β} (h : held.length ≤ 1) (xs : List β) : (tellAll k held xs).length ≤ 1 := by
  induction xs generalizing held with
  | nil => exact h
  | cons x xs ih =>
    refine ih ?_
    unfold tell
    split
    · exact h
    · exact Nat.le_refl 1

/-- The cell holds what was told last. -/
theorem tellAll_last {held : List β} (h : held.length ≤ 1) {l : List β} (hl : l ≠ []) :
    ∃ y, tellAll k held l = [y] ∧ some (k y) = (l.map k).getLast? := by
  obtain ⟨xs, x, rfl⟩ := (List.eq_nil_or_concat' l).resolve_left hl
  rw [tellAll_append]
  have hlen := length_tellAll (k := k) h xs
  by_cases hx : k x ∈ (tellAll k held xs).map k
  · obtain ⟨y, hy, hkey⟩ := List.mem_map.1 hx
    refine ⟨y, ?_, by simp [hkey]⟩
    rw [show tellAll k (tellAll k held xs) [x] = tellAll k held xs from tell_of_held hx]
    match htell : tellAll k held xs, hlen, hy with
    | [z], _, hy => rw [List.mem_singleton.1 hy]
  · exact ⟨x, tell_of_new hx, by simp⟩

/-- ... and was replaced as often as the told key changed. -/
theorem replaced_eq_changes {held : List β} (h : held.length ≤ 1) (xs : List β) :
    replaced k held xs = changes (held.head?.map k) (xs.map k) := by
  induction xs generalizing held with
  | nil => rfl
  | cons x xs ih =>
    have hheld : k x ∈ held.map k ↔ held.head?.map k = some (k x) := by
      match held, h with
      | [], _ => simp
      | [y], _ => simp [eq_comm]
    have hnext : ((tell k held x).head?.map k) = some (k x) := by
      by_cases hx : k x ∈ held.map k
      · rw [tell_of_held hx, hheld.1 hx]
      · rw [tell_of_new hx]
        rfl
    have hlen : (tell k held x).length ≤ 1 := length_tellAll (k := k) h [x]
    simp only [replaced, List.map_cons, changes, hheld, ih hlen, hnext]

end Cell
