import Mathlib.Data.List.Nodup
import Mathlib.Data.List.Basic
/-!
# Dictionaries in insertion order

A Python dictionary: its entries in the order their keys were first inserted,
each key once. Assigning to a present key keeps its place, assigning to an
absent one appends, and deleting forgets the place.
-/

/-- Entries in insertion order, each key once. -/
structure Dict (κ β : Type) where
  entries : List (κ × β)
  nodup : (entries.map Prod.fst).Nodup

namespace Dict

variable {κ β : Type}

def empty : Dict κ β := ⟨[], List.nodup_nil⟩

def keys (d : Dict κ β) : List κ := d.entries.map Prod.fst

def values (d : Dict κ β) : List β := d.entries.map Prod.snd

def size (d : Dict κ β) : Nat := d.entries.length

instance : Inhabited (Dict κ β) := ⟨empty⟩

@[simp] theorem entries_empty : (empty : Dict κ β).entries = [] := rfl
@[simp] theorem keys_empty : (empty : Dict κ β).keys = [] := rfl
@[simp] theorem size_empty : (empty : Dict κ β).size = 0 := rfl

theorem ext_entries {d d' : Dict κ β} (h : d.entries = d'.entries) : d = d' := by
  cases d; cases d'; cases h; rfl

theorem keys_nodup (d : Dict κ β) : d.keys.Nodup := d.nodup

theorem size_eq_keys (d : Dict κ β) : d.size = d.keys.length := by simp [size, keys]

variable [DecidableEq κ]

/-- `d.get(k)`. -/
def get (d : Dict κ β) (k : κ) : Option β := (d.entries.find? (fun e => e.1 = k)).map Prod.snd

/-- The entries after `d[k] = v`. -/
def assign (k : κ) (v : β) (l : List (κ × β)) : List (κ × β) :=
  if k ∈ l.map Prod.fst then l.map (fun e => if e.1 = k then (k, v) else e) else l ++ [(k, v)]

theorem assign_keys (k : κ) (v : β) (l : List (κ × β)) :
    (assign k v l).map Prod.fst = if k ∈ l.map Prod.fst then l.map Prod.fst else l.map Prod.fst ++ [k] := by
  unfold assign
  split
  · rw [List.map_map]
    refine List.map_congr_left (fun e _ => ?_)
    by_cases he : e.1 = k <;> simp [he]
  · simp

/-- `d[k] = v`. -/
def set (d : Dict κ β) (k : κ) (v : β) : Dict κ β where
  entries := assign k v d.entries
  nodup := by
    rw [assign_keys]
    split
    · exact d.nodup
    · next h => exact List.nodup_append.2 ⟨d.nodup, by simp, by
        intro a ha b hb; rw [List.mem_singleton] at hb; rintro rfl; exact h (hb ▸ ha)⟩

/-- `d.pop(k, None)`. -/
def erase (d : Dict κ β) (k : κ) : Dict κ β where
  entries := d.entries.filter (fun e => e.1 ≠ k)
  nodup := d.nodup.sublist (List.filter_sublist.map Prod.fst)

/-! ## Reading -/

theorem get_eq_some_iff {d : Dict κ β} {k : κ} {v : β} : d.get k = some v ↔ (k, v) ∈ d.entries := by
  unfold get
  constructor
  · intro h
    obtain ⟨e, he, rfl⟩ := Option.map_eq_some_iff.1 h
    have hk : e.1 = k := by simpa using List.find?_some he
    exact hk ▸ List.mem_of_find?_eq_some he
  · intro h
    obtain ⟨e, he⟩ : ∃ e, d.entries.find? (fun e => e.1 = k) = some e := by
      apply Option.isSome_iff_exists.1
      rw [List.find?_isSome]
      exact ⟨(k, v), h, by simp⟩
    have hk : e.1 = k := by simpa using List.find?_some he
    have : e = (k, v) := List.inj_on_of_nodup_map d.nodup (List.mem_of_find?_eq_some he) h (by simp [hk])
    rw [he, this]
    rfl

theorem mem_keys_iff {d : Dict κ β} {k : κ} : k ∈ d.keys ↔ ∃ v, d.get k = some v := by
  constructor
  · intro h
    obtain ⟨⟨k', v⟩, he, rfl⟩ := List.mem_map.1 h
    exact ⟨v, get_eq_some_iff.2 he⟩
  · rintro ⟨v, h⟩
    exact List.mem_map.2 ⟨(k, v), get_eq_some_iff.1 h, rfl⟩

theorem mem_values_iff {d : Dict κ β} {v : β} : v ∈ d.values ↔ ∃ k, d.get k = some v := by
  constructor
  · intro h
    obtain ⟨⟨k, v'⟩, he, rfl⟩ := List.mem_map.1 h
    exact ⟨k, get_eq_some_iff.2 he⟩
  · rintro ⟨k, h⟩
    exact List.mem_map.2 ⟨(k, v), get_eq_some_iff.1 h, rfl⟩

theorem get_eq_none_iff {d : Dict κ β} {k : κ} : d.get k = none ↔ k ∉ d.keys := by
  rw [mem_keys_iff]
  cases d.get k <;> simp

@[simp] theorem get_empty (k : κ) : (empty : Dict κ β).get k = none := rfl

/-! ## Assigning -/

theorem mem_set_iff {d : Dict κ β} {k k' : κ} {v v' : β} :
    (k', v') ∈ (d.set k v).entries ↔ (k' = k ∧ v' = v) ∨ (k' ≠ k ∧ (k', v') ∈ d.entries) := by
  simp only [set, assign]
  split
  · next h =>
    rw [List.mem_map]
    constructor
    · rintro ⟨e, he, heq⟩
      split at heq
      · cases heq; exact .inl ⟨rfl, rfl⟩
      · next hne => subst heq; exact .inr ⟨hne, he⟩
    · rintro (⟨rfl, rfl⟩ | ⟨hne, he⟩)
      · obtain ⟨e, he, hk⟩ := List.mem_map.1 h
        exact ⟨e, he, by simp [hk]⟩
      · exact ⟨(k', v'), he, by simp [hne]⟩
  · next h =>
    simp only [List.mem_append, List.mem_singleton, Prod.mk.injEq]
    constructor
    · rintro (he | he)
      · exact .inr ⟨fun hk => h (hk ▸ List.mem_map.2 ⟨_, he, rfl⟩), he⟩
      · exact .inl he
    · rintro (he | ⟨-, he⟩)
      · exact .inr he
      · exact .inl he

@[simp] theorem get_set_self (d : Dict κ β) (k : κ) (v : β) : (d.set k v).get k = some v :=
  get_eq_some_iff.2 (mem_set_iff.2 (.inl ⟨rfl, rfl⟩))

theorem get_set_of_ne (d : Dict κ β) {k k' : κ} (v : β) (h : k' ≠ k) : (d.set k v).get k' = d.get k' := by
  ext v'
  rw [get_eq_some_iff, get_eq_some_iff, mem_set_iff]
  simp [h]

theorem get_set (d : Dict κ β) (k k' : κ) (v : β) :
    (d.set k v).get k' = if k' = k then some v else d.get k' := by
  split
  · next h => rw [h, get_set_self]
  · next h => exact get_set_of_ne d v h

theorem exists_get_iff {d : Dict κ β} {p : κ → β → Prop} :
    (∃ k v, d.get k = some v ∧ p k v) ↔ ∃ e ∈ d.entries, p e.1 e.2 := by
  simp only [get_eq_some_iff, Prod.exists]

theorem get_set_eq_some {d : Dict κ β} {k k' : κ} {v v' : β} (h : (d.set k v).get k' = some v') :
    (k' = k ∧ v' = v) ∨ (k' ≠ k ∧ d.get k' = some v') := by
  rw [get_set] at h
  split at h
  · next hk => exact .inl ⟨hk, (Option.some.inj h).symm⟩
  · next hk => exact .inr ⟨hk, h⟩

theorem keys_set (d : Dict κ β) (k : κ) (v : β) :
    (d.set k v).keys = if k ∈ d.keys then d.keys else d.keys ++ [k] := assign_keys k v d.entries

theorem mem_keys_set {d : Dict κ β} {k k' : κ} {v : β} : k' ∈ (d.set k v).keys ↔ k' = k ∨ k' ∈ d.keys := by
  simp only [mem_keys_iff, get_set]
  by_cases h : k' = k <;> simp [h]

theorem entries_set_new {d : Dict κ β} {k : κ} (v : β) (h : k ∉ d.keys) :
    (d.set k v).entries = d.entries ++ [(k, v)] := by
  simp only [set, assign, if_neg (show k ∉ d.entries.map Prod.fst from h)]

/-! ## Age -/

/-- Of two keys, `k` was inserted first. -/
def Before (d : Dict κ β) (k k' : κ) : Prop := k' ∈ d.keys ∧ d.keys.idxOf k < d.keys.idxOf k'

theorem Before.mem {d : Dict κ β} {k k' : κ} (h : d.Before k k') : k ∈ d.keys :=
  List.idxOf_lt_length_iff.1 (Nat.lt_trans h.2 (List.idxOf_lt_length_iff.2 h.1))

theorem Before.ne {d : Dict κ β} {k k' : κ} (h : d.Before k k') : k ≠ k' := by
  rintro rfl
  exact Nat.lt_irrefl _ h.2

/-- Assigning changes the age of no key. -/
theorem Before.set {d : Dict κ β} {k k' : κ} (h : d.Before k k') (k₁ : κ) (v : β) : (d.set k₁ v).Before k k' := by
  unfold Before
  rw [keys_set]
  split
  · exact h
  · refine ⟨List.mem_append_left _ h.1, ?_⟩
    rw [List.idxOf_append_of_mem h.mem, List.idxOf_append_of_mem h.1]
    exact h.2

theorem before_set_new {d : Dict κ β} {k k' : κ} (v : β) (hk : k ∈ d.keys) (hk' : k' ∉ d.keys) :
    (d.set k' v).Before k k' := by
  unfold Before
  rw [keys_set, if_neg hk', List.idxOf_append_of_mem hk, List.idxOf_append_of_notMem hk']
  have hlt := List.idxOf_lt_length_iff.2 hk
  exact ⟨by simp, by omega⟩

/-- There is no endless sequence of ever later keys. -/
theorem wellFounded_before (d : Dict κ β) : WellFounded (fun k' k => d.Before k k') := by
  refine Subrelation.wf (r := InvImage (· < ·) (fun k => d.size - d.keys.idxOf k)) ?_ (InvImage.wf _ Nat.lt_wfRel.wf)
  intro k' k h
  have hlt := List.idxOf_lt_length_iff.2 h.1
  rw [← size_eq_keys] at hlt
  show d.size - d.keys.idxOf k' < d.size - d.keys.idxOf k
  have := h.2
  omega

/-! ## Counting -/

theorem values_set_new {d : Dict κ β} {k : κ} (v : β) (h : k ∉ d.keys) : (d.set k v).values = d.values ++ [v] := by
  rw [values, entries_set_new v h, List.map_append]
  rfl

/-- Replacing a value by one that counts the same. -/
theorem countP_values_set {d : Dict κ β} {k : κ} {v v' : β} (p : β → Bool) (h : d.get k = some v) (hp : p v' = p v) :
    (d.set k v').values.countP p = d.values.countP p := by
  have hk : k ∈ d.entries.map Prod.fst := mem_keys_iff.2 ⟨v, h⟩
  simp only [values, set, assign, if_pos hk, List.map_map, List.countP_map]
  refine List.countP_congr (fun e he => ?_)
  by_cases hek : e.1 = k
  · have hv : d.get k = some e.2 := get_eq_some_iff.2 (hek ▸ he)
    rw [h] at hv
    simp [hek, hp, Option.some.inj hv]
  · simp [hek]

/-! ## Deleting -/

@[simp] theorem get_erase_self (d : Dict κ β) (k : κ) : (d.erase k).get k = none := by
  rw [get_eq_none_iff]
  simp [erase, keys]

theorem get_erase_of_ne (d : Dict κ β) {k k' : κ} (h : k' ≠ k) : (d.erase k).get k' = d.get k' := by
  ext v
  simp [get_eq_some_iff, erase, h]

theorem get_erase (d : Dict κ β) (k k' : κ) :
    (d.erase k).get k' = if k' = k then none else d.get k' := by
  split
  · next h => rw [h, get_erase_self]
  · next h => exact get_erase_of_ne d h

/-- Deleting keys one after the other. -/
theorem get_eraseAll (ks : List κ) (d : Dict κ β) (k : κ) :
    (ks.foldl erase d).get k = if k ∈ ks then none else d.get k := by
  induction ks generalizing d with
  | nil => simp
  | cons a ks ih =>
    rw [List.foldl_cons, ih, get_erase]
    by_cases h : k = a <;> simp [h]

theorem entries_eraseAll (ks : List κ) (d : Dict κ β) :
    (ks.foldl erase d).entries = d.entries.filter (fun e => e.1 ∉ ks) := by
  induction ks generalizing d with
  | nil => simp
  | cons a ks ih =>
    rw [List.foldl_cons, ih]
    simp only [erase, List.filter_filter]
    refine List.filter_congr (fun e _ => ?_)
    by_cases h : e.1 = a <;> simp [h]

end Dict
