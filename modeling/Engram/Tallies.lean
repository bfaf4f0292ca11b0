import Engram.Overlap
import Engram.Slots
/-!
# Tallies of two turns at once

Both write from a snapshot. Each side is given a tally of what it holds and what
it has yet to retire. `Tidy` relates both tallies to the store: in each slot, at
most one live record is on neither side's list to retire.
-/

namespace Engram

open Interleave MemoryManager Backend Text

variable [Host]

/-! ## Writes from what is known -/

/-- Lists or puts the record under `k`. -/
def CallOn.obtains (u k : String) : (i : Call) → i.Ans → Prop
  | search (.memories v) none _ _, items => v = u ∧ ∃ item ∈ items, item.key = k
  | put (.memories v) k' _, _ => v = u ∧ k' = k
  | _, _ => False

def Obtained (u : String) (past : List (Event Call CallOn.Ans World)) (a : Side) (k : String) : Prop :=
  ∃ e ∈ past, e.side = a ∧ e.call.obtains u k e.answer

/-- A put of a live record by the side `a`: if it is new, `a` has listed or put
every active record of its slot. If it is not, the stored one is not superseded. -/
structure OrderlyPut (u : String) (past : List (Event Call CallOn.Ans World)) (w : World) (a : Side)
    (k : String) (m : Memory) : Prop where
  known : (w.mem u).get k = none → m.attr ≠ "" → ∀ e ∈ (w.mem u).entries, e.2.slot = m.slot → e.2.isActive w.now →
    Obtained u past a e.1
  live : ∀ r ∈ (w.mem u).get k, r.supersededBy = none

/-- Puts of live records are orderly. -/
def Orderly (u : String) (past : List (Event Call CallOn.Ans World)) (w : World) (a : Side) : Call → Prop
  | .put (.memories v) k m => v = u → m.supersededBy = none → OrderlyPut u past w a k m
  | _ => True

section Decide
variable (u k : String) (past : List (Event Call CallOn.Ans World)) (w : World) (a : Side)

instance CallOn.obtains.decide : (i : Call) → (o : i.Ans) → Decidable (i.obtains u k o)
  | .search (.memories v) none _ _, items => inferInstanceAs (Decidable (v = u ∧ ∃ item ∈ items, item.key = k))
  | .put (.memories v) k' _, _ => inferInstanceAs (Decidable (v = u ∧ k' = k))
  | .search (.memories _) (some _) _ _, _ | .search (.quarantine _) _ _ _, _ | .search (.threads _) _ _ _, _
  | .put (.quarantine _) _ _, _ | .put (.threads _) _ _, _ | .get _ _, _ | .delete _ _, _ | .getState _, _
  | .saveState _ _, _ | .deleteThread _, _ | .utcnow, _ | .uuid4, _ | .embed _, _ | .extract _, _
  | .invoke _, _ => .isFalse id

instance : Decidable (Obtained u past a k) :=
  inferInstanceAs (Decidable (∃ e ∈ past, e.side = a ∧ e.call.obtains u k e.answer))

instance (m : Memory) : Decidable (OrderlyPut u past w a k m) :=
  decidable_of_iff
    (((w.mem u).get k = none → m.attr ≠ "" → ∀ e ∈ (w.mem u).entries, e.2.slot = m.slot → e.2.isActive w.now →
      Obtained u past a e.1) ∧ ∀ r ∈ (w.mem u).get k, r.supersededBy = none)
    ⟨fun h => ⟨h.1, h.2⟩, fun h => ⟨h.known, h.live⟩⟩

instance Orderly.decide : (i : Call) → Decidable (Orderly u past w a i)
  | .put (.memories v) k m => inferInstanceAs (Decidable (v = u → m.supersededBy = none → OrderlyPut u past w a k m))
  | .put (.quarantine _) _ _ | .put (.threads _) _ _ | .search _ _ _ _ | .get _ _ | .delete _ _ | .getState _
  | .saveState _ _ | .deleteThread _ | .utcnow | .uuid4 | .embed _ | .extract _ | .invoke _ => .isTrue trivial

end Decide

/-! ## Tallies -/

/-- What stays as it is in a record. -/
structure Mark where
  id : String
  slot : String × String
  expiresAt : Option Time

def Memory.mark (m : Memory) : Mark := ⟨m.id, m.slot, m.expiresAt⟩

def Mark.Expired (x : Mark) (t : Time) : Prop := ∃ e, x.expiresAt = some e ∧ e ≤ t

/-- What a side holds, what it is about to retire, the id it was given for the
next record, and the last clock reading it went by. -/
structure Tally where
  held : List Mark
  pending : List String
  fresh : Option String
  now : Time

def Tally.start : Tally := ⟨[], [], none, 0⟩

namespace Tally
variable (u : String)

/-- The calls a side makes. -/
def Makes (t : Tally) : Call → Prop
  | .search (.memories v) none _ _ => v = u ∧ t.held = []
  | .put (.memories v) k m => v = u ∧ m.id = k ∧ m.userId = u ∧
    (m.mark ∈ t.held ∨ m.supersededBy = none ∧ t.fresh = some k)
  | .delete _ _ => False
  | _ => True

/-- What it is answered. -/
def Answers (t : Tally) : (i : Call) → i.Ans → Prop
  | .search (.memories v) none _ _, items =>
    v = u → (items.map (·.key)).Nodup ∧ ∀ item ∈ items, item.value.id = item.key ∧ item.value.userId = u
  | .utcnow, o => t.now ≤ o
  | .uuid4, o => o ∉ t.held.map (·.id)
  | _, _ => True

/-- A new record goes on the tally, and those of its slot on the list to retire. -/
structure Adds (t : Tally) (k : String) (m : Memory) (t' : Tally) : Prop where
  live : m.supersededBy = none
  fresh : t.fresh = some k
  idle : t.pending = []
  held : t'.held = t.held ++ [m.mark]
  pending : m.attr ≠ "" → ∀ x ∈ t.held, x.slot = m.slot → x.id ∈ t'.pending ∨ x.Expired t.now
  fresh' : t'.fresh = none
  now : t'.now = t.now

/-- A held record is put back, and goes off the tally only if it is superseded. -/
structure Rewrites (t : Tally) (k : String) (m : Memory) (t' : Tally) : Prop where
  held : m.mark ∈ t.held
  now : t'.now = t.now
  fresh : t'.fresh = t.fresh
  sub : ∀ x ∈ t'.held, x ∈ t.held
  kept : ∀ k', (k' = k → m.supersededBy = none) → k' ∈ t.held.map (·.id) → k' ∈ t'.held.map (·.id)
  pending : ∀ k', (k' = k → m.supersededBy = none) → k' ∉ t'.pending → k' ∉ t.pending

/-- The tally after a call. -/
def Notes (t : Tally) : (i : Call) → i.Ans → Tally → Prop
  | .search (.memories _) none _ _, items, t' =>
    t' = { t with held := (items.filter (fun item => item.value.supersededBy = none)).map (·.value.mark) }
  | .utcnow, o, t' => t' = t ∨ t' = { t with now := o }
  | .uuid4, o, t' => t' = t ∨ t' = { t with fresh := some o }
  | .put (.memories _) k m, _, t' => t.Rewrites k m t' ∨ t.Adds k m t'
  | _, _, t' => t' = t

omit [Host] in
/-- Superseded, it goes off both lists. -/
theorem rewrites_retired {t : Tally} {m : Memory} (hheld : m.mark ∈ t.held) (hsup : m.supersededBy ≠ none) :
    t.Rewrites m.id m { t with held := t.held.filter (·.id ≠ m.id), pending := t.pending.filter (· ≠ m.id) } := by
  refine ⟨hheld, rfl, rfl, fun x hx => (List.mem_filter.1 hx).1, fun k hk hmem => ?_, fun k hk hnot hmem => ?_⟩
  · obtain ⟨x, hx, rfl⟩ := List.mem_map.1 hmem
    exact List.mem_map.2 ⟨x, List.mem_filter.2 ⟨hx, decide_eq_true (fun he => hsup (hk he))⟩, rfl⟩
  · exact hnot (List.mem_filter.2 ⟨hmem, decide_eq_true (fun he => hsup (hk he))⟩)

end Tally

/-! ## The invariant -/

/-- What the tallies say of the store. -/
structure Tidy (u : String) (past : List (Event Call CallOn.Ans World)) (g : Side → Tally) (w : World) : Prop where
  fed : w.Fed
  keyed : ∀ k m, (w.mem u).get k = some m → m.id = k ∧ m.userId = u ∧ k ∈ w.issued
  now : ∀ a, (g a).now ≤ w.now
  fresh : ∀ a k, (g a).fresh = some k → k ∈ w.issued ∧ (w.mem u).get k = none
  fresh_ne : ∀ a b k, (g a).fresh = some k → (g b).fresh = some k → a = b
  held : ∀ a, ∀ x ∈ (g a).held, ∃ m, (w.mem u).get x.id = some m ∧ m.slot = x.slot ∧ m.expiresAt = x.expiresAt
  known : ∀ a k, Obtained u past a k → ∃ m, (w.mem u).get k = some m ∧
    (m.supersededBy = none → k ∈ (g a).held.map (·.id))
  one : ∀ k k' m m', (w.mem u).get k = some m → (w.mem u).get k' = some m' → m.attr ≠ "" → m.slot = m'.slot →
    m.isActive w.now → m'.isActive w.now → (∀ a, k ∉ (g a).pending) → (∀ a, k' ∉ (g a).pending) → k = k'
  gone : ∀ e ∈ past, ∀ k m, (e.before.mem u).get k = some m → m.supersededBy ≠ none →
    ∃ m', (w.mem u).get k = some m' ∧ m'.supersededBy ≠ none

namespace Tidy
variable {u : String} {past : List (Event Call CallOn.Ans World)} {g : Side → Tally} {w w' : World} {a : Side}
  {e : Event Call CallOn.Ans World} {t : Tally} {k : String} {m : Memory}

theorem obtained_cons {b : Side} : Obtained u (e :: past) b k ↔
    (e.side = b ∧ e.call.obtains u k e.answer) ∨ Obtained u past b k := by
  unfold Obtained
  simp

/-- A call that neither lists nor puts memories. -/
theorem skip (h : Tidy u past g w) (hmem : w'.mem u = w.mem u) (hafter : w.After w') (hfed : w'.Fed) (he : e.before = w)
    (hnot : ∀ k, ¬ e.call.obtains u k e.answer) : Tidy u (e :: past) g w' where
  fed := hfed
  keyed k m hget := by
    rw [hmem] at hget
    exact ⟨(h.keyed k m hget).1, (h.keyed k m hget).2.1, hafter.issued (h.keyed k m hget).2.2⟩
  now a := (h.now a).trans (hafter.now_le h.fed)
  fresh a k hk := by
    rw [hmem]
    exact ⟨hafter.issued (h.fresh a k hk).1, (h.fresh a k hk).2⟩
  fresh_ne := h.fresh_ne
  held a x hx := by
    rw [hmem]
    exact h.held a x hx
  known a k hk := by
    rw [hmem]
    exact h.known a k ((obtained_cons.1 hk).resolve_left (fun hobt => hnot k hobt.2))
  one k k' m m' hm hm' hattr hslot hact hact' := by
    rw [hmem] at hm hm'
    have hle := hafter.now_le h.fed
    exact h.one k k' m m' hm hm' hattr hslot (Memory.isActive_of_le hle hact) (Memory.isActive_of_le hle hact')
  gone d hd k m hget hsup := by
    rw [hmem]
    rcases List.mem_cons.1 hd with rfl | hd
    · exact ⟨m, he ▸ hget, hsup⟩
    · exact h.gone d hd k m hget hsup

omit [Host] in
theorem update_tally {β : Type} (f : Tally → β) (hf : f t = f (g a)) (b : Side) :
    f (Function.update g a t b) = f (g b) := by
  by_cases hb : b = a
  · subst hb
    rw [Function.update_self, hf]
  · rw [Function.update_of_ne hb]

/-- Only the clock reading and the fresh id change. -/
theorem retell (h : Tidy u past g w) (hheld : t.held = (g a).held) (hpending : t.pending = (g a).pending)
    (hnow : t.now ≤ w.now)
    (hfresh : ∀ k, t.fresh = some k → (k ∈ w.issued ∧ (w.mem u).get k = none) ∧ ∀ b, b ≠ a → (g b).fresh ≠ some k) :
    Tidy u past (Function.update g a t) w where
  fed := h.fed
  keyed := h.keyed
  now b := by
    by_cases hb : b = a
    · subst hb
      rwa [Function.update_self]
    · rw [Function.update_of_ne hb]
      exact h.now b
  fresh b k hk := by
    by_cases hb : b = a
    · subst hb
      rw [Function.update_self] at hk
      exact (hfresh k hk).1
    · rw [Function.update_of_ne hb] at hk
      exact h.fresh b k hk
  fresh_ne b c k hb hc := by
    by_cases hba : b = a <;> by_cases hca : c = a
    · exact hba.trans hca.symm
    · rw [hba, Function.update_self] at hb
      rw [Function.update_of_ne hca] at hc
      exact absurd hc ((hfresh k hb).2 c hca)
    · rw [hca, Function.update_self] at hc
      rw [Function.update_of_ne hba] at hb
      exact absurd hb ((hfresh k hc).2 b hba)
    · rw [Function.update_of_ne hba] at hb
      rw [Function.update_of_ne hca] at hc
      exact h.fresh_ne b c k hb hc
  held b := by
    rw [update_tally Tally.held hheld b]
    exact h.held b
  known b := by
    rw [update_tally Tally.held hheld b]
    exact h.known b
  one := by
    simp only [update_tally Tally.pending hpending]
    exact h.one
  gone := h.gone

/-- A side with an empty tally lists the records. -/
theorem list {limit offset : Nat} {items : List (SearchItem Memory)} (h : Tidy u past g w) (hheld : (g a).held = [])
    (hitems : ∀ item ∈ items, (w.mem u).get item.key = some item.value)
    (ht : t = { g a with held := (items.filter (fun item => item.value.supersededBy = none)).map (·.value.mark) }) :
    Tidy u (⟨a, .search (.memories u) none limit offset, items, w⟩ :: past) (Function.update g a t) w where
  fed := h.fed
  keyed := h.keyed
  now b := by
    rw [update_tally Tally.now (by rw [ht]) b]
    exact h.now b
  fresh b := by
    rw [update_tally Tally.fresh (by rw [ht]) b]
    exact h.fresh b
  fresh_ne b c := by
    rw [update_tally Tally.fresh (by rw [ht]) b, update_tally Tally.fresh (by rw [ht]) c]
    exact h.fresh_ne b c
  held b x hx := by
    by_cases hb : b = a
    · subst hb
      rw [Function.update_self, ht] at hx
      obtain ⟨item, hitem, rfl⟩ := List.mem_map.1 hx
      have hget := hitems item (List.mem_filter.1 hitem).1
      refine ⟨item.value, ?_, rfl, rfl⟩
      show (w.mem u).get item.value.id = some item.value
      rw [(h.keyed _ _ hget).1]
      exact hget
    · rw [Function.update_of_ne hb] at hx
      exact h.held b x hx
  known b k hk := by
    rcases obtained_cons.1 hk with ⟨rfl, -, item, hitem, rfl⟩ | hk
    · refine ⟨item.value, hitems item hitem, fun hlive => ?_⟩
      rw [Function.update_self, ht]
      have hid : item.value.id = item.key := (h.keyed _ _ (hitems item hitem)).1
      exact List.mem_map.2 ⟨item.value.mark,
        List.mem_map.2 ⟨item, List.mem_filter.2 ⟨hitem, by simp [hlive]⟩, rfl⟩, hid⟩
    · obtain ⟨m, hget, hm⟩ := h.known b k hk
      refine ⟨m, hget, fun hlive => ?_⟩
      by_cases hb : b = a
      · subst hb
        have := hm hlive
        rw [hheld] at this
        cases this
      · -- the other side's tally stays
        rw [Function.update_of_ne hb]
        exact hm hlive
  one := by
    simp only [update_tally Tally.pending (show t.pending = (g a).pending by rw [ht])]
    exact h.one
  gone d hd k m hget hsup := by
    rcases List.mem_cons.1 hd with rfl | hd
    · exact ⟨m, hget, hsup⟩
    · exact h.gone d hd k m hget hsup

/-! ### Puts -/

theorem keyed_put (h : Tidy u past g w) (hid : m.id = k) (huser : m.userId = u) (hissued : k ∈ w.issued) {k' : String}
    {m' : Memory} (hget : ((w.put (.memories u) k m).mem u).get k' = some m') :
    m'.id = k' ∧ m'.userId = u ∧ k' ∈ w.issued := by
  rw [mem_put_self] at hget
  rcases Dict.get_set_eq_some hget with ⟨rfl, rfl⟩ | ⟨-, hget⟩
  · exact ⟨hid, huser, hissued⟩
  · exact h.keyed k' m' hget

/-- A put over a superseded record supersedes it again. -/
theorem gone_put (h : Tidy u past g w) (hlive : m.supersededBy = none → ∀ r ∈ (w.mem u).get k, r.supersededBy = none)
    (hbefore : e.before = w) : ∀ d ∈ e :: past, ∀ k' m', (d.before.mem u).get k' = some m' → m'.supersededBy ≠ none →
      ∃ n, ((w.put (.memories u) k m).mem u).get k' = some n ∧ n.supersededBy ≠ none := by
  intro d hd k' m' hget hsup
  obtain ⟨n, hn, hnsup⟩ : ∃ n, (w.mem u).get k' = some n ∧ n.supersededBy ≠ none := by
    rcases List.mem_cons.1 hd with rfl | hd
    · exact ⟨m', hbefore ▸ hget, hsup⟩
    · exact h.gone d hd k' m' hget hsup
  rw [mem_put_self, Dict.get_set]
  split
  · next hk =>
    refine ⟨m, rfl, fun hl => hnsup ?_⟩
    exact hlive hl n (hk ▸ hn)
  · exact ⟨n, hn, hnsup⟩

omit [Host] in
/-- Off the pending list after the put, off it before. -/
theorem not_pending (hp : k ∉ t.pending → k ∉ (g a).pending) (h : ∀ b, k ∉ (Function.update g a t b).pending)
    (b : Side) : k ∉ (g b).pending := by
  by_cases hb : b = a
  · subst hb
    have := h b
    rw [Function.update_self] at this
    exact hp this
  · have := h b
    rwa [Function.update_of_ne hb] at this

/-- What the tally says of the record it holds. -/
theorem of_held (h : Tidy u past g w) (hid : m.id = k) (hheld : m.mark ∈ (g a).held) :
    ∃ r, (w.mem u).get k = some r ∧ r.slot = m.slot ∧ r.expiresAt = m.expiresAt := by
  obtain ⟨r, hget, hslot, hexp⟩ := h.held a m.mark hheld
  have hid' : m.mark.id = k := hid
  rw [hid'] at hget
  exact ⟨r, hget, hslot, hexp⟩

/-- Where a record is active after it is put back, one of its slot was before. -/
theorem active_before (h : Tidy u past g w) (hid : m.id = k) (hheld : m.mark ∈ (g a).held)
    (hlive : m.supersededBy = none → ∀ r ∈ (w.mem u).get k, r.supersededBy = none) {k' : String} {m' : Memory}
    (hget : ((w.put (.memories u) k m).mem u).get k' = some m') (hact : m'.isActive w.now) :
    (k' = k → m.supersededBy = none) ∧ ∃ r, (w.mem u).get k' = some r ∧ r.slot = m'.slot ∧ r.isActive w.now := by
  obtain ⟨r, hr, hslot, hexp⟩ := h.of_held hid hheld
  rw [mem_put_self] at hget
  rcases Dict.get_set_eq_some hget with ⟨rfl, rfl⟩ | ⟨hne, hget⟩
  · have hl : m'.supersededBy = none := (Memory.isActive_iff.1 hact).1
    refine ⟨fun _ => hl, r, hr, hslot, ?_⟩
    rwa [Memory.isActive_congr ((hlive hl r hr).trans hl.symm) hexp]
  · exact ⟨fun he => absurd he hne, m', hget, rfl, hact⟩

omit [Host] in
theorem held_of_rewrites (ht : (g a).Rewrites k m t) {b : Side} {x : Mark} (hx : x ∈ (Function.update g a t b).held) :
    x ∈ (g b).held := by
  by_cases hb : b = a
  · subst hb
    rw [Function.update_self] at hx
    exact ht.sub x hx
  · rwa [Function.update_of_ne hb] at hx

omit [Host] in
theorem kept_of_rewrites (ht : (g a).Rewrites k m t) {b : Side} {k' : String} (hlive : k' = k → m.supersededBy = none)
    (hmem : k' ∈ (g b).held.map (·.id)) : k' ∈ (Function.update g a t b).held.map (·.id) := by
  by_cases hb : b = a
  · subst hb
    rw [Function.update_self]
    exact ht.kept k' hlive hmem
  · rwa [Function.update_of_ne hb]

/-- A held record is put back. -/
theorem rewrite (h : Tidy u past g w) (hid : m.id = k) (huser : m.userId = u) (ht : (g a).Rewrites k m t)
    (hlive : m.supersededBy = none → ∀ r ∈ (w.mem u).get k, r.supersededBy = none) :
    Tidy u (⟨a, .put (.memories u) k m, (), w⟩ :: past) (Function.update g a t) (w.put (.memories u) k m) := by
  obtain ⟨r, hget, hslot, hexp⟩ := h.of_held hid ht.held
  refine ⟨⟨h.fed.clock_mono, h.fed.now_le, h.fed.ids_inj, h.fed.ids_new⟩, ?keyed, ?now, ?fresh,
    ?fresh_ne, ?held, ?known, ?one, h.gone_put hlive rfl⟩
  case keyed => exact fun k' m' hm' => h.keyed_put hid huser (h.keyed _ r hget).2.2 hm'
  case now =>
    intro b
    rw [update_tally Tally.now ht.now b]
    exact h.now b
  case fresh =>
    intro b k' hk'
    rw [update_tally Tally.fresh ht.fresh b] at hk'
    obtain ⟨hissued, hnone⟩ := h.fresh b k' hk'
    refine ⟨hissued, ?_⟩
    -- A fresh id is not stored, and `k` is.
    rw [mem_put_self, Dict.get_set_of_ne _ _ (fun he => ?_)]
    · exact hnone
    · rw [he, hget] at hnone
      cases hnone
  case fresh_ne =>
    intro b c
    rw [update_tally Tally.fresh ht.fresh b, update_tally Tally.fresh ht.fresh c]
    exact h.fresh_ne b c
  case held =>
    intro b x hx
    obtain ⟨n, hn, hns, hne⟩ := h.held b x (held_of_rewrites ht hx)
    rw [mem_put_self, Dict.get_set]
    split
    · next hk =>
      rw [hk, hget] at hn
      cases hn
      exact ⟨m, rfl, hslot.symm.trans hns, hexp.symm.trans hne⟩
    · exact ⟨n, hn, hns, hne⟩
  case known =>
    intro b k' hk'
    rw [mem_put_self, Dict.get_set]
    split
    · next hk =>
      refine ⟨m, rfl, fun hl => kept_of_rewrites ht (fun _ => hl) ?_⟩
      rcases obtained_cons.1 hk' with ⟨rfl, -⟩ | hk'
      · exact List.mem_map.2 ⟨m.mark, ht.held, hid.trans hk.symm⟩
      · obtain ⟨n, hn, hnheld⟩ := h.known b k' hk'
        exact hnheld (hlive hl n (hk ▸ hn))
    · next hk =>
      obtain ⟨n, hn, hnheld⟩ := h.known b k' ((obtained_cons.1 hk').resolve_left (fun hobt => hk hobt.2.2.symm))
      exact ⟨n, hn, fun hl => kept_of_rewrites ht (fun he => absurd he hk) (hnheld hl)⟩
  case one =>
    intro k₁ k₂ m₁ m₂ h₁ h₂ hattr hslots hact₁ hact₂ hp₁ hp₂
    obtain ⟨hk₁, r₁, hr₁, hs₁, ha₁⟩ := h.active_before hid ht.held hlive h₁ hact₁
    obtain ⟨hk₂, r₂, hr₂, hs₂, ha₂⟩ := h.active_before hid ht.held hlive h₂ hact₂
    have hattr₁ : r₁.attr ≠ "" := by
      rw [show r₁.attr = m₁.attr from congrArg Prod.fst hs₁]
      exact hattr
    exact h.one k₁ k₂ r₁ r₂ hr₁ hr₂ hattr₁ (hs₁.trans (hslots.trans hs₂.symm)) ha₁ ha₂
      (not_pending (ht.pending k₁ hk₁) hp₁) (not_pending (ht.pending k₂ hk₂) hp₂)

omit [Host] in
theorem held_of_adds (ht : (g a).Adds k m t) {b : Side} {x : Mark} :
    x ∈ (Function.update g a t b).held ↔ x ∈ (g b).held ∨ (b = a ∧ x = m.mark) := by
  by_cases hb : b = a
  · subst hb
    simp [ht.held]
  · simp [hb]

omit [Host] in
theorem fresh_of_adds (ht : (g a).Adds k m t) {b : Side} {k' : String}
    (hk' : (Function.update g a t b).fresh = some k') : b ≠ a ∧ (g b).fresh = some k' := by
  by_cases hb : b = a
  · subst hb
    rw [Function.update_self, ht.fresh'] at hk'
    cases hk'
  · rw [Function.update_of_ne hb] at hk'
    exact ⟨hb, hk'⟩

omit [Host] in
theorem idle_of_adds (ht : (g a).Adds k m t) {k' : String} (h : ∀ b, k' ∉ (Function.update g a t b).pending) :
    k' ∉ t.pending ∧ ∀ b, k' ∉ (g b).pending := by
  refine ⟨by simpa using h a, not_pending (fun _ => ?_) h⟩
  rw [ht.idle]
  exact List.not_mem_nil

/-- What is active in the slot of a new record is on the new list to retire. -/
theorem rival (h : Tidy u past g w) (ht : (g a).Adds k m t) (hknown : OrderlyPut u past w a k m) {k' : String}
    {n : Memory} (hn : (w.mem u).get k' = some n) (hattr : m.attr ≠ "") (hslot : n.slot = m.slot)
    (hact : n.isActive w.now) : k' ∈ t.pending := by
  have hmem : (k', n) ∈ (w.mem u).entries := Dict.get_eq_some_iff.1 hn
  obtain ⟨n', hn', hheld⟩ := h.known a k' (hknown.known (h.fresh a k ht.fresh).2 hattr _ hmem hslot hact)
  rw [hn] at hn'
  cases hn'
  obtain ⟨hlive, hexp⟩ := Memory.isActive_iff.1 hact
  obtain ⟨x, hx, rfl⟩ := List.mem_map.1 (hheld hlive)
  obtain ⟨n', hn', hxs, hxe⟩ := h.held a x hx
  rw [hn] at hn'
  cases hn'
  refine (ht.pending hattr x hx (hxs.symm.trans hslot)).resolve_right ?_
  rintro ⟨e, he, hle⟩
  exact absurd (hexp e (hxe.trans he)) (not_lt.2 (hle.trans (h.now a)))

/-- A new record is put: the tally knows all others of its slot, and has them to retire. -/
theorem add (h : Tidy u past g w) (hid : m.id = k) (huser : m.userId = u) (ht : (g a).Adds k m t)
    (hknown : OrderlyPut u past w a k m) :
    Tidy u (⟨a, .put (.memories u) k m, (), w⟩ :: past) (Function.update g a t) (w.put (.memories u) k m) := by
  obtain ⟨hissued, hnone⟩ := h.fresh a k ht.fresh
  have hne : ∀ {k' n}, (w.mem u).get k' = some n → k' ≠ k := by
    rintro k' n hn rfl
    rw [hnone] at hn
    cases hn
  have hkeep : ∀ {k' n}, (w.mem u).get k' = some n → ((w.put (.memories u) k m).mem u).get k' = some n := by
    intro k' n hn
    rw [mem_put_self, Dict.get_set_of_ne _ _ (hne hn)]
    exact hn
  have hself : ((w.put (.memories u) k m).mem u).get k = some m := by
    rw [mem_put_self, Dict.get_set_self]
  refine ⟨⟨h.fed.clock_mono, h.fed.now_le, h.fed.ids_inj, h.fed.ids_new⟩, ?keyed, ?now, ?fresh,
    ?fresh_ne, ?held, ?known, ?one, h.gone_put (fun _ r hr => absurd rfl (hne hr)) rfl⟩
  case keyed => exact fun k' m' hm' => h.keyed_put hid huser hissued hm'
  case now =>
    intro b
    rw [update_tally Tally.now ht.now b]
    exact h.now b
  case fresh =>
    intro b k' hk'
    obtain ⟨hb, hk'⟩ := fresh_of_adds ht hk'
    -- The fresh ids of the two sides differ.
    have hne' : k' ≠ k := by
      rintro rfl
      exact hb (h.fresh_ne b a k' hk' ht.fresh)
    rw [mem_put_self, Dict.get_set_of_ne _ _ hne']
    exact h.fresh b k' hk'
  case fresh_ne => exact fun b c k' hb hc => h.fresh_ne b c k' (fresh_of_adds ht hb).2 (fresh_of_adds ht hc).2
  case held =>
    intro b x hx
    rcases (held_of_adds ht).1 hx with hx | ⟨-, rfl⟩
    · obtain ⟨n, hn, hns⟩ := h.held b x hx
      exact ⟨n, hkeep hn, hns⟩
    · refine ⟨m, ?_, rfl, rfl⟩
      show ((w.put (.memories u) k m).mem u).get m.id = some m
      rw [hid]
      exact hself
  case known =>
    intro b k' hk'
    rcases obtained_cons.1 hk' with ⟨rfl, -, rfl⟩ | hk'
    · exact ⟨m, hself, fun _ => List.mem_map.2 ⟨m.mark, (held_of_adds ht).2 (.inr ⟨rfl, rfl⟩), hid⟩⟩
    · obtain ⟨n, hn, hnheld⟩ := h.known b k' hk'
      refine ⟨n, hkeep hn, fun hl => ?_⟩
      obtain ⟨x, hx, hxid⟩ := List.mem_map.1 (hnheld hl)
      exact List.mem_map.2 ⟨x, (held_of_adds ht).2 (.inl hx), hxid⟩
  case one =>
    intro k₁ k₂ m₁ m₂ h₁ h₂ hattr hslots hact₁ hact₂ hp₁ hp₂
    rw [mem_put_self] at h₁ h₂
    obtain ⟨hnp₁, hp₁⟩ := idle_of_adds ht hp₁
    obtain ⟨hnp₂, hp₂⟩ := idle_of_adds ht hp₂
    rcases Dict.get_set_eq_some h₁ with ⟨rfl, rfl⟩ |
      ⟨-, hm₁⟩ <;> rcases Dict.get_set_eq_some h₂ with ⟨rfl, rfl⟩ | ⟨-, hm₂⟩
    · rfl
    · exact absurd (h.rival ht hknown hm₂ hattr hslots.symm hact₂) hnp₂
    · have hattr₂ : m₂.attr ≠ "" := by
        rw [show m₂.attr = m₁.attr from congrArg Prod.fst hslots.symm]
        exact hattr
      exact absurd (h.rival ht hknown hm₁ hattr₂ hslots hact₁) hnp₁
    · exact h.one k₁ k₂ m₁ m₂ hm₁ hm₂ hattr hslots hact₁ hact₂ hp₁ hp₂

theorem search_keys_nodup (S : Services) (u : String) (w : World) :
    ((S.search (.memories u) (w.mem u) none).map (·.key)).Nodup := by
  have hkeys : (S.search (.memories u) (w.mem u) none).map (·.key) = (S.walk (.memories u) (w.mem u)).map Prod.fst := by
    unfold Components.search
    rw [List.map_map]
    rfl
  rw [hkeys]
  exact ((S.walk_perm (.memories u) (w.mem u)).map Prod.fst).nodup_iff.2 (w.mem u).nodup

/-- Every call a side makes leaves things tidy, if its puts are orderly. -/
theorem step (S : Services) (h : Tidy u past g w) (i : Call) (hmakes : (g a).Makes u i)
    (horderly : Orderly u past w a i) :
    (g a).Answers u i (handle S i w).1 ∧ ∀ t, (g a).Notes i (handle S i w).1 t →
      Tidy u (⟨a, i, (handle S i w).1, w⟩ :: past) (Function.update g a t) (handle S i w).2 := by
  have hafter := after_handle S i w
  have hfed := fed_handle S i h.fed
  -- The tally stays as it is.
  have hskip : (handle S i w).2.mem u = w.mem u → (∀ k, ¬ i.obtains u k (handle S i w).1) → ∀ t, t = g a →
      Tidy u (⟨a, i, (handle S i w).1, w⟩ :: past) (Function.update g a t) (handle S i w).2 := by
    rintro hmem hnot t rfl
    rw [Function.update_eq_self]
    exact h.skip hmem hafter hfed rfl hnot
  cases i with
  | search ns q limit offset =>
    cases ns with
    | memories v =>
      cases q with
      | none =>
        obtain ⟨rfl, hheld⟩ := hmakes
        have hitems : ∀ item ∈ (((S.search (.memories v) (w.mem v) none).drop offset).take limit),
            (w.mem v).get item.key = some item.value :=
          fun item hitem => S.search_mem (List.mem_of_mem_drop (List.mem_of_mem_take hitem))
        refine ⟨fun _ => ⟨?_, fun item hitem => ?_⟩, fun t ht => h.list hheld hitems ht⟩
        · exact (search_keys_nodup S v w).sublist (((List.take_sublist _ _).trans (List.drop_sublist _ _)).map _)
        · exact ⟨(h.keyed _ _ (hitems item hitem)).1, (h.keyed _ _ (hitems item hitem)).2.1⟩
      | some q => exact ⟨trivial, hskip rfl (fun _ => id)⟩
    | _ => exact ⟨trivial, hskip rfl (fun _ => id)⟩
  | put ns k m =>
    refine ⟨trivial, ?_⟩
    cases ns with
    | memories v =>
      obtain ⟨rfl, hid, huser, -⟩ := hmakes
      rintro t (ht | ht)
      · exact h.rewrite hid huser ht (fun hl => (horderly rfl hl).live)
      · exact h.add hid huser ht (horderly rfl ht.live)
    | quarantine v => exact hskip (mem_put_quarantine w v u k m) (fun _ => id)
    | threads v =>
      exact hskip (w.store_put_of_ne k m (show Namespace.memories u ≠ .threads v by simp)) (fun _ => id)
  | utcnow =>
    refine ⟨(h.now a).trans h.fed.now_le, ?_⟩
    rintro t (ht | rfl)
    · exact hskip rfl (fun _ => id) t ht
    · have hnext : Tidy u (⟨a, .utcnow, w.clock 0, w⟩ :: past) g w.tick := h.skip rfl hafter hfed rfl (fun _ => id)
      refine hnext.retell rfl rfl (le_refl _) (fun k hk => ⟨hnext.fresh a k hk, fun b hb hbk => ?_⟩)
      exact hb (h.fresh_ne b a k hbk hk)
  | uuid4 =>
    have hstored : ∀ k m, (w.mem u).get k = some m → k ≠ w.ids 0 := by
      rintro k m hm rfl
      exact h.fed.ids_new 0 (h.keyed _ m hm).2.2
    refine ⟨fun hmem => ?_, ?_⟩
    · obtain ⟨x, hx, hxid⟩ := List.mem_map.1 hmem
      obtain ⟨m, hm, -⟩ := h.held a x hx
      exact hstored _ m hm hxid
    · rintro t (ht | rfl)
      · exact hskip rfl (fun _ => id) t ht
      · have hnext : Tidy u (⟨a, .uuid4, w.ids 0, w⟩ :: past) g w.issue := h.skip rfl hafter hfed rfl (fun _ => id)
        refine hnext.retell rfl rfl (hnext.now a) (fun k hk => ?_)
        obtain rfl := Option.some.inj hk
        refine ⟨⟨List.mem_cons_self, ?_⟩, fun b _ hb => h.fed.ids_new 0 (h.fresh b _ hb).1⟩
        exact Option.eq_none_iff_forall_ne_some.2 (fun m hm => hstored _ m hm rfl)
  | embed text =>
    exact ⟨trivial, hskip (w.mem_embed S text u) (fun _ => id)⟩
  | delete => cases hmakes
  | _ => exact ⟨trivial, hskip rfl (fun _ => id)⟩

end Tidy

end Engram
