import Engram.Runs
/-!
# Paged listing

`_all_keys` over any store that pages. What was collected and what is left from
the offset on always make up the whole namespace, so the loop ends with all of
it, however short the pages are.
-/

namespace Engram

variable [Host]

/-- While `I` holds, a search of `ns` without a query is answered with a page of
`l`: what comes next from the offset on, within the limit, and something if
anything is left. -/
structure Pages {σ : Type} (h : (i : Call) → σ → i.Ans × σ) (I : σ → Prop) (ns : Namespace)
    (l : List (String × ns.Val)) : Prop where
  next : ∀ {s} limit offset, I s →
    (h (.search ns none limit offset) s).1.map (fun item => (item.key, item.value)) <+: l.drop offset
  length_le : ∀ {s} limit offset, I s → (h (.search ns none limit offset) s).1.length ≤ limit
  ne_nil : ∀ {s} limit offset, I s → 0 < limit → offset < l.length → (h (.search ns none limit offset) s).1 ≠ []
  keep : ∀ {s} limit offset, I s → I (h (.search ns none limit offset) s).2

section Loop
variable {σ : Type} {h : (i : Call) → σ → i.Ans × σ} {I : σ → Prop} {ns : Namespace} {l : List (String × ns.Val)}

/-- With a round for every record left and one more, paging returns them all. -/
theorem run_allKeysFrom (hp : Pages h I ns l) {rounds offset : Nat} (out : List (String × ns.Val)) {s : σ}
    (hs : I s) (hoff : offset ≤ l.length) (hrounds : l.length - offset < rounds) :
    ∃ s', (allKeysFrom ns rounds offset out).run h s = (.ok (out ++ l.drop offset), s') ∧ I s' := by
  induction rounds generalizing offset out s with
  | zero => omega
  | succ rounds ih =>
    have hkeep := hp.keep pageSize offset hs
    obtain ⟨rest, hrest⟩ := hp.next pageSize offset hs
    rw [allKeysFrom, storeSearch, Prog.call_bind, Prog.run_call, Prog.ret_bind]
    split
    · next hend =>
      -- An empty page: nothing is left.
      have hle : l.length ≤ offset := by
        by_contra hlt
        exact hp.ne_nil pageSize offset hs (by decide) (not_le.1 hlt) (List.isEmpty_iff.1 hend)
      rw [List.drop_of_length_le hle, List.append_nil]
      exact ⟨_, rfl, hkeep⟩
    · next hpage =>
      generalize hq : h (.search ns none pageSize offset) s = q at hpage hkeep hrest ⊢
      have hpos : 0 < q.1.length := List.length_pos_iff.2 (fun hnil => hpage (List.isEmpty_iff.2 hnil))
      have hlen : q.1.length + rest.length = l.length - offset := by
        simpa using congrArg List.length hrest
      obtain ⟨s', hrun, hs'⟩ := ih (out ++ q.1.map (fun item => (item.key, item.value))) hkeep
        (show offset + q.1.length ≤ l.length by omega) (by omega)
      refine ⟨s', hrun.trans ?_, hs'⟩
      rw [← List.drop_drop, ← hrest, List.append_assoc, List.drop_left' (List.length_map _)]

theorem run_allKeys (hp : Pages h I ns l) {rounds : Nat} {s : σ} (hs : I s) (hrounds : l.length < rounds) :
    ∃ s', (allKeys rounds ns).run h s = (.ok l, s') ∧ I s' :=
  run_allKeysFrom hp [] hs (Nat.zero_le _) hrounds

/-- A page that starts at the offset, of a length that depends on the limit only. -/
theorem Pages.of_take {s : σ} (length : Nat → Nat) (hle : ∀ limit, length limit ≤ limit)
    (hpos : ∀ limit, 0 < limit → 0 < length limit)
    (hh : ∀ limit offset, h (.search ns none limit offset) s =
      (((l.drop offset).take (length limit)).map (fun e => (⟨e.1, e.2, none⟩ : SearchItem ns.Val)), s)) :
    Pages h (· = s) ns l where
  next := by
    rintro _ limit offset rfl
    rw [hh, List.map_map]
    exact (List.map_id _).symm ▸ List.take_prefix _ _
  length_le := by
    rintro _ limit offset rfl
    rw [hh, List.length_map]
    exact (List.length_take_le _ _).trans (hle limit)
  ne_nil := by
    rintro _ limit offset rfl hlimit hoffset
    have hlength := hpos limit hlimit
    rw [hh, ← List.length_pos_iff, List.length_map, List.length_take, List.length_drop]
    omega
  keep := by
    rintro _ limit offset rfl
    rw [hh]

end Loop

/-! ## Stores with short pages -/

/-- The store of `handle`, but with no more than `cap` records a page. -/
def capped (S : Services) (cap : Nat) : (i : Call) → World → i.Ans × World
  | .search ns query limit offset, w => handle S (.search ns query (min limit cap) offset) w
  | i, w => handle S i w

section Pages
variable (S : Services) (w : World) (ns : Namespace)

theorem pages_capped {cap : Nat} (hcap : 0 < cap) : Pages (capped S cap) (· = w) ns (S.walk ns (w.store ns)) :=
  .of_take (min · cap) (fun _ => min_le_left _ _) (fun _ hlimit => lt_min hlimit hcap) (fun limit offset => by
    simp only [capped, handle, Components.search, ← List.map_drop, ← List.map_take])

theorem pages_handle : Pages (handle S) (· = w) ns (S.walk ns (w.store ns)) :=
  .of_take id (fun _ => le_refl _) (fun _ => id) (fun limit offset => by
    simp only [handle, Components.search, ← List.map_drop, ← List.map_take, id])

end Pages

/-! ## Listings -/

/-- Against a store that pages through the records of a namespace in some order,
`_all_keys` ends and returns each of them once, in that order; `known_threads`
returns the threads of the index sorted, each once. -/
theorem listing_exact {σ : Type} {h : (i : Call) → σ → i.Ans × σ} {I : σ → Prop} {s : σ} (hs : I s) :
    (∀ ns (d : Dict String ns.Val) l, l.Perm d.entries → Pages h I ns l → ∀ rounds, d.size < rounds →
      ∃ s', I s' ∧ (allKeys rounds ns).run h s = (.ok l, s') ∧ (l.map Prod.fst).Nodup ∧
        ∀ k v, (k, v) ∈ l ↔ d.get k = some v) ∧
    ∀ u (d : Dict String ThreadEntry) l, l.Perm d.entries → Pages h I (.threads u) l → ∀ rounds, d.size < rounds →
      ∃ s' threads, I s' ∧ (knownThreads rounds u).run h s = (.ok threads, s') ∧ threads.Pairwise (· < ·) ∧
        ∀ t, t ∈ threads ↔ t ∈ d.keys := by
  refine ⟨fun ns d l hl hp rounds hrounds => ?_, fun u d l hl hp rounds hrounds => ?_⟩
  · obtain ⟨s', hrun, hs'⟩ := run_allKeys hp hs (hl.length_eq.trans_lt hrounds)
    refine ⟨s', hs', hrun, (hl.map Prod.fst).nodup_iff.2 d.nodup, fun k v => ?_⟩
    rw [hl.mem_iff, Dict.get_eq_some_iff]
  · obtain ⟨s', hrun, hs'⟩ := run_allKeys hp hs (hl.length_eq.trans_lt hrounds)
    have hperm : ((l.map Prod.fst).insertionSort (· ≤ ·)).Perm d.keys :=
      (List.perm_insertionSort _ _).trans (hl.map Prod.fst)
    refine ⟨s', _, hs', ?run, ?sorted, fun t => hperm.mem_iff⟩
    case run =>
      rw [knownThreads, Prog.run_bind_ok h hrun]
      rfl
    case sorted => exact (List.sortedLE_insertionSort.sortedLT_of_nodup (hperm.nodup_iff.2 d.keys_nodup)).pairwise

end Engram

/-! ## One record a page -/

namespace Engram

attribute [local instance] ascii

/-- Three threads of alice's. -/
def threeThreads : World :=
  ((Backend.empty.put (.threads "alice") "tue" ⟨"tue", none, none⟩).put (.threads "alice") "mon"
    ⟨"mon", none, none⟩).put (.threads "alice") "wed" ⟨"wed", none, none⟩

theorem listing_exact_capped :
    ∃ w threads, w = threeThreads ∧
      (knownThreads 4 "alice").run (capped teamBackend 1) threeThreads = (.ok threads, w) ∧
      threads.Pairwise (· < ·) ∧ ∀ t, t ∈ threads ↔ t ∈ (threeThreads.store (.threads "alice")).keys :=
  (listing_exact (I := (· = threeThreads)) rfl).2 "alice" (threeThreads.store (.threads "alice")) _ (.refl _)
    (pages_capped teamBackend threeThreads (.threads "alice") Nat.one_pos) 4 (by decide)

end Engram
