import Engram.Overlap
/-!
# Apply against forgetting

A turn works on copies of the records it read. A copy written back after the
record was deleted brings it back.
-/

namespace Engram

open Interleave Backend

variable [Host]

/-! ## Calls -/

namespace CallOn

/-- Puts a memory of `u` under `k`. -/
def stores (u k : String) : Call → Bool
  | put (.memories v) k' _ => v = u ∧ k' = k
  | _ => false

def removes (u k : String) : Call → Bool
  | delete (.memories v) k' => v = u ∧ k' = k
  | _ => false

/-- The answer has the record of `u` under `k`, or is the new id `k`. -/
def hands (u k : String) : (i : Call) → i.Ans → Bool
  | search (.memories v) _ _ _, items => v = u ∧ k ∈ items.map (·.key)
  | uuid4, id => id = k
  | _, _ => false

end CallOn

def Backend.Has (u k : String) (w : World) : Prop := (w.mem u).get k ≠ none

section Effects
variable (S : Services) {u k : String} {i : Call} {w : World}

theorem has_stores (hi : i.stores u k) : (handle S i w).2.Has u k := by
  cases i with
  | put ns k' m =>
    cases ns with
    | memories v =>
      obtain ⟨rfl, rfl⟩ := of_decide_eq_true hi
      show ((w.put (.memories v) k' m).store (.memories v)).get k' ≠ none
      rw [get_put_self]
      exact Option.some_ne_none m
    | _ => cases hi
  | _ => cases hi

theorem has_removes (hi : i.removes u k) : ¬ (handle S i w).2.Has u k := by
  cases i with
  | delete ns k' =>
    cases ns with
    | memories v =>
      obtain ⟨rfl, rfl⟩ := of_decide_eq_true hi
      exact not_not.2 get_delete_self
    | _ => cases hi
  | _ => cases hi

theorem has_congr {w' : World} (h : (w'.store (.memories u)).get k = (w.store (.memories u)).get k) :
    w'.Has u k ↔ w.Has u k := by
  unfold Backend.Has
  rw [h]

theorem has_other (hs : ¬ i.stores u k) (hr : ¬ i.removes u k) : (handle S i w).2.Has u k ↔ w.Has u k := by
  cases i with
  | put ns k' m =>
    refine has_congr (get_put_of_ne ?_)
    rintro ⟨rfl, rfl⟩
    exact hs (decide_eq_true ⟨rfl, rfl⟩)
  | delete ns k' =>
    refine has_congr (get_delete_of_ne ?_)
    rintro ⟨rfl, rfl⟩
    exact hr (decide_eq_true ⟨rfl, rfl⟩)
  | embed text =>
    exact has_congr (congrArg (Dict.get · k) (w.mem_embed S text u))
  | _ => exact Iff.rfl

/-- From a matched store, whoever was not handed `k` was answered with other ids only. -/
theorem answered_unhanded {v : String} (hw : w.Matched) (hh : i.hands u k (handle S i w).1 = false) :
    Answered v (fun id => v = u → id ≠ k) i (handle S i w).1 := by
  have hanswered := answered S (u := v) (G := fun _ => True) hw (fun _ _ _ => trivial) i (fun _ => trivial)
  generalize (handle S i w).1 = o at hh hanswered
  cases i with
  | search ns q limit offset =>
    cases ns with
    | memories v' =>
      rintro rfl item hitem
      obtain ⟨hid, huser, -⟩ := hanswered rfl item hitem
      refine ⟨hid, huser, fun hv hk => ?_⟩
      exact of_decide_eq_false hh ⟨hv, List.mem_map.2 ⟨item, hitem, hk⟩⟩
    | _ => trivial
  | uuid4 => exact fun _ => of_decide_eq_false hh
  | _ => trivial

end Effects

/-! ## Gone for good -/

/-- The operation forgets `u` or part of it. -/
def Op.Forgets (u : String) : Op → Prop
  | forgetMemory v _ | forgetThread v _ | forgetUser v => v = u
  | _ => False

theorem only_forget {A : (i : Call) → i.Ans → Prop} {u : String} {op : Op} (hop : op.Forgets u) (ag : Agent)
    (rounds : Nat) : (ag.act rounds op).Only A (ForgetCall u) (fun _ => True) := by
  cases op with
  | forgetMemory v id => cases hop; exact .map _ (only_forgetMemory id)
  | forgetThread v t => cases hop; exact .map _ (only_forgetThread rounds t)
  | forgetUser v => cases hop; exact .map _ (only_forgetUser rounds)
  | _ => cases hop

/-- An issued id that `u` has no record under stays without one. -/
theorem Run.absent {ag : Agent} {P : Services → Op → World → Prop} {u k : String} {w w' : World} (h : Run ag P w w')
    (hw : w.Matched) (hi : k ∈ w.issued) (hk : (w.mem u).get k = none) : (w'.mem u).get k = none := by
  refine (h.inv (fun v => v.Matched ∧ k ∈ v.issued ∧ (v.mem u).get k = none) ⟨hw, hi, hk⟩ ?_).2.2
  rintro S op i v ⟨hv, hi, hk⟩ hvalid -
  have hgone : (v.given i).Gone u k :=
    ⟨hv.congr (fun _ => rfl), hk, fun n (hn : i.ids n = k) => hvalid.ids_new n (hn ▸ hi)⟩
  have hend := (Prog.Only.run_inv (I := Gone u k) (only_act ag (op.rounds (v.given i)) op)
    (fun i w hi hw => hw.handle S hi) hgone).1
  exact ⟨hend.matched, (after_exec S (ag.act (op.rounds (v.given i)) op)).issued hi, hend.absent⟩

section Deleted
variable {S : Side → Services} {ag : Agent} {rounds : Nat} {u k text : String} {threadId : Option String}
  {source : Provenance} {op : Op} {w : World} {c : Overlap}

/-- A record that was deleted before the turn was handed its id stays away. -/
theorem gone_of_unhanded (hop : op.Forgets u) (hw : w.Keyed) (hf : w.Fed)
    (hr : Overlaps S (fun _ _ _ _ => True) (ag.overlap rounds (.observe u text threadId source) op w) c)
    {e : Event Call CallOn.Ans World} (he : e ∈ c.past) (hremoved : e.call.removes u k) (hhad : e.before.Has u k)
    (hn : ¬ Followed (fun e => e.side = .left ∧ e.call.hands u k e.answer) (fun e => e.call.removes u k) c.past) :
    c.state.Gone u k := by
  -- Cut the run at the deletion: up to there the turn was not handed the id.
  obtain ⟨d, p, l, hrd, -, hd, hpast, hrd', hrc, hl⟩ := Reach.split hr rfl he
  have hunhanded : ∀ x ∈ d.past, x.side = .left → x.call.hands u k x.answer = false := by
    intro x hx hside
    by_contra hhands
    rw [hl] at hn
    exact hn (.of_append hremoved ⟨x, hx, hside, eq_true_of_ne_false hhands⟩)
  have hmatched := Overlaps.matched hrd' hw.matched
  have hleft : ∀ x ∈ (d.after (fun a => handle (S a)) e.side e.call p).past, x.side = .left →
      Answered u (fun id => u = u → id ≠ k) x.call x.answer := by
    intro x hx hside
    have hans := Reach.answer hrd' rfl x hx
    have hno : x.call.hands u k x.answer = false := by
      rw [hpast] at hx
      rcases List.mem_cons.1 hx with rfl | hx
      · rcases x with ⟨_, i, o, v⟩
        cases i with
        | delete => rfl
        | _ => cases hremoved
      · exact hunhanded x hx hside
    rw [hans] at hno ⊢
    exact answered_unhanded (S x.side) (hmatched.2 x hx) hno
  -- Right after it the record is absent, and its id is not issued again.
  have hgone : (d.after (fun a => handle (S a)) e.side e.call p).state.Gone u k := by
    refine ⟨hmatched.1, not_not.1 (has_removes (S e.side) hremoved), fun n hk => ?_⟩
    obtain ⟨m, hm⟩ := Option.ne_none_iff_exists'.1 (show d.state.Has u k from hd ▸ hhad)
    have hissued := (Overlaps.keyed hrd hw).issued hm
    obtain ⟨j, hj⟩ := (after_handle (S e.side) e.call d.state).ids n
    exact (Overlaps.fed hrd hf).ids_new j (hj ▸ hk ▸ hissued)
  refine (Reach.only_inv (A := fun _ => Answered u (fun id => u = u → id ≠ k))
    (P := fun _ => PutsOwn u (fun id => u = u → id ≠ k)) (Q := fun _ _ => True)
    (fun a i s hi hs => hs.handle (S a) hi) hrc (fun a => ?_) hgone).1
  cases a with
  | left => exact (Reach.only hrd' .left (only_act ag rounds (.observe u text threadId source)) rfl hleft).1
  | right =>
    have hright :=
      (Reach.only hrd' .right (A := fun _ _ => True) (only_forget hop ag rounds) rfl (fun _ _ _ => trivial)).1
    exact (hright.mono (fun _ => .of_forget) (fun _ h => h)).of_answers (fun _ _ _ => trivial)

/-- A deleted memory is back exactly if the turn put it after its last deletion,
having been handed its id before a deletion of it. If it is not back when both
are done, it never is. -/
theorem apply_forget_absent_iff (hop : op.Forgets u) (hw : w.Keyed) (hf : w.Fed)
    (hr : Overlaps S (fun _ _ _ _ => True) (ag.overlap rounds (.observe u text threadId source) op w) c)
    (hdeleted : ∃ e ∈ c.past, e.call.removes u k ∧ e.before.Has u k) :
    ((c.state.mem u).get k = none ↔
      ¬ (Latest (fun e => e.call.stores u k) (fun e => e.call.removes u k) c.past ∧
        Followed (fun e => e.side = .left ∧ e.call.hands u k e.answer) (fun e => e.call.removes u k) c.past)) ∧
    ((c.state.mem u).get k = none → ∀ P w', Run ag P c.state w' → (w'.mem u).get k = none) := by
  obtain ⟨e, he, hremoved, hhad⟩ := hdeleted
  have htoggle := Reach.toggle (T := Has u k) (p := fun e => e.call.stores u k)
    (q := fun e => e.call.removes u k) hr rfl
    (fun e _ hs => has_stores (S e.side) hs) (fun e _ hd => has_removes (S e.side) hd)
    (fun e _ hs hd => has_other (S e.side) hs hd)
  refine ⟨⟨fun habsent ⟨hlatest, _⟩ => htoggle.2 (.inl hlatest) habsent, fun hnot => ?_⟩, fun habsent P w' hrun => ?_⟩
  · by_contra hhas
    rcases htoggle.1 hhas with hlatest | ⟨hnone, -⟩
    · exact hhas (gone_of_unhanded hop hw hf hr he hremoved hhad (fun hfollowed => hnot ⟨hlatest, hfollowed⟩)).absent
    · exact (hnone e he).2 hremoved
  · obtain ⟨d, p, l, hrd, -, hd, -, -, hrc, -⟩ := Reach.split hr rfl he
    obtain ⟨m, hm⟩ := Option.ne_none_iff_exists'.1 (show d.state.Has u k from hd ▸ hhad)
    have hissued := (Overlaps.keyed hrd hw).issued hm
    have hafter := (after_handle (S e.side) e.call d.state).trans (Overlaps.after hrc)
    exact hrun.absent (Overlaps.matched hr hw.matched).1 (hafter.issued hissued) habsent

end Deleted

end Engram

/-! ## A turn and a deletion -/

namespace Engram

open Interleave Backend

theorem removed_iff [Host] {u k : String} {past : List (Event Call CallOn.Ans World)} :
    (∃ e ∈ past, e.call.removes u k ∧ e.before.Has u k) ↔
      ∃ e ∈ past, e.call.removes u k ∧ ((e.before.mem u).get k).isSome := by
  simp only [Backend.Has, Option.isSome_iff_ne_none]

attribute [local instance] ascii

/-- The user's team is known; the same statement and the deletion of the record come at once. -/
def restateAndForget : Overlap :=
  Agent.overlap ⟨⟨5⟩, .manager lenient, true⟩ 2 (.observe "alice" "payments" none .user) (.forgetMemory "alice" "a")
    ((Agent.perform ⟨⟨5⟩, .manager lenient, true⟩ teamBackend (.observe "alice" "payments" none .user)
      (Backend.empty.given (.at 1 'a'))).2.given (.at 2 'b'))

/-- The turn has read the record, the record is deleted, and the turn reinforces what it read. -/
theorem apply_forget_back : ∃ c, Overlaps (fun _ => teamBackend) (fun _ _ _ _ => True) restateAndForget c ∧ c.Finished ∧
    (∃ e ∈ c.past, e.call.removes "alice" "a" ∧ e.before.Has "alice" "a") ∧ c.state.Has "alice" "a" := by
  refine ⟨play (fun _ => handle teamBackend) [.left, .left, .right, .right, .left, .left] restateAndForget,
    reach_play (meets_true _ _), ⟨by decide +kernel, by decide +kernel⟩, ?_, ?_⟩
  · exact removed_iff.2 (by decide +kernel)
  · have h : (((play (fun _ => handle teamBackend) [.left, .left, .right, .right, .left, .left]
      restateAndForget).state.mem "alice").get "a").isSome := by decide +kernel
    exact Option.isSome_iff_ne_none.1 h

/-- The deletion first: the statement is written anew, and the deleted record stays away. -/
theorem apply_forget_absent_iff_before : ∃ c, Overlaps (fun _ => teamBackend) (fun _ _ _ _ => True) restateAndForget c ∧
    c.Finished ∧ (c.state.mem "alice").keys = ["b"] ∧
    ∀ P w', Run ⟨⟨5⟩, .manager lenient, true⟩ P c.state w' → (w'.mem "alice").get "a" = none := by
  have hr : Overlaps (fun _ => teamBackend) (fun _ _ _ _ => True) restateAndForget
      (play (fun _ => handle teamBackend) (.replicate 2 .right ++ .replicate 6 .left) restateAndForget) :=
    reach_play (meets_true _ _)
  have hstamped := Stamped.empty.perform (show 0 ≤ 1 by decide) 'a' ⟨⟨5⟩, .manager lenient, true⟩ teamBackend
    (.observe "alice" "payments" none .user)
  have hdeleted : ∃ e ∈ (play (fun _ => handle teamBackend) (.replicate 2 .right ++ .replicate 6 .left)
      restateAndForget).past, e.call.removes "alice" "a" ∧ e.before.Has "alice" "a" := removed_iff.2 (by decide +kernel)
  obtain ⟨hiff, hnever⟩ := apply_forget_absent_iff (by exact rfl)
    (((keyed_empty.given _).perform _ _ _).given _) (fed_given (hstamped.valid (by decide) (by decide))) hr hdeleted
  refine ⟨_, hr, ⟨by decide +kernel, by decide +kernel⟩, by decide +kernel, hnever (hiff.2 (fun h => ?_))⟩
  exact absurd h.1 (by decide +kernel)

end Engram
