import Engram.Deletion
import Engram.Overlap
/-!
# Chat against forgetting

A chat writes its index entry, then its transcript. Forgetting deletes the
transcript, then the entry. Which of each pair comes last, call by call,
decides what is left.
-/

namespace Engram

open Interleave MemoryManager

variable [Host]

/-! ## Calls -/

namespace CallOn

def saves (thread : String) : Call → Bool
  | saveState c _ => c = thread
  | _ => false

def drops (thread : String) : Call → Bool
  | deleteThread c => c = thread
  | _ => false

/-- Puts an entry for `u`'s thread `t`. -/
def lists (u t : String) : Call → Bool
  | put (.threads v) s _ => v = u ∧ s = t
  | _ => false

def unlists (u t : String) : Call → Bool
  | delete (.threads v) s => v = u ∧ s = t
  | _ => false

/-- Entries are put with their keys, and nothing is deleted. -/
def Keeps : Call → Prop
  | put (.threads v) s e => e.checkpointId = some (checkpointKey v s)
  | delete _ _ | deleteThread _ => False
  | _ => True

end CallOn

/-! ## What the store holds -/

namespace Backend
variable {u t : String}

def HasTranscript (u t : String) (w : World) : Prop := w.checkpoints (checkpointKey u t) ≠ none

/-- `u`'s thread `t` has an entry with its key. -/
def HasIndex (u t : String) (w : World) : Prop :=
  ∃ e, (w.store (.threads u)).get t = some e ∧ e.checkpointId = some (checkpointKey u t)

/-- The transcript of the conversation, if there is one, is in the index. -/
def Listed (u t : String) (w : World) : Prop := w.HasTranscript u t → w.HasIndex u t

end Backend

section Effects
variable (S : Services) {u t : String} {i : Call} {w : World}

theorem hasTranscript_saves (hi : i.saves (checkpointKey u t)) : (handle S i w).2.HasTranscript u t := by
  cases i with
  | saveState c ms =>
    obtain rfl := of_decide_eq_true hi
    show (w.setState _ (some ms)).checkpoints _ ≠ none
    simp
  | _ => cases hi

theorem hasTranscript_drops (hi : i.drops (checkpointKey u t)) : ¬ (handle S i w).2.HasTranscript u t := by
  cases i with
  | deleteThread c =>
    obtain rfl := of_decide_eq_true hi
    show ¬ (w.setState _ none).checkpoints _ ≠ none
    simp
  | _ => cases hi

theorem hasTranscript_other (hs : ¬ i.saves (checkpointKey u t)) (hd : ¬ i.drops (checkpointKey u t)) :
    (handle S i w).2.HasTranscript u t ↔ w.HasTranscript u t := by
  cases i with
  | saveState c ms =>
    have hne : checkpointKey u t ≠ c := fun h => hs (decide_eq_true h.symm)
    show (w.setState c (some ms)).checkpoints _ ≠ none ↔ w.checkpoints _ ≠ none
    rw [Backend.checkpoints_setState, Function.update_of_ne hne]
  | deleteThread c =>
    have hne : checkpointKey u t ≠ c := fun h => hd (decide_eq_true h.symm)
    show (w.setState c none).checkpoints _ ≠ none ↔ w.checkpoints _ ≠ none
    rw [Backend.checkpoints_setState, Function.update_of_ne hne]
  | embed text =>
    show (w.embed S text).2.checkpoints _ ≠ none ↔ w.checkpoints _ ≠ none
    rw [Backend.checkpoints_embed]
  | _ => exact Iff.rfl

theorem hasIndex_lists (hi : i.lists u t) (hk : i.Keeps) : (handle S i w).2.HasIndex u t := by
  cases i with
  | put ns s e =>
    cases ns with
    | threads v =>
      obtain ⟨rfl, rfl⟩ := of_decide_eq_true hi
      exact ⟨e, Backend.get_put_self, hk⟩
    | _ => cases hi
  | _ => cases hi

theorem hasIndex_unlists (hi : i.unlists u t) : ¬ (handle S i w).2.HasIndex u t := by
  cases i with
  | delete ns s =>
    cases ns with
    | threads v =>
      obtain ⟨rfl, rfl⟩ := of_decide_eq_true hi
      rintro ⟨e, hget, -⟩
      cases Backend.get_delete_self.symm.trans hget
    | _ => cases hi
  | _ => cases hi

/-- A store that answers for the thread as before has the entry as before. -/
theorem hasIndex_congr {w' : World} (h : (w'.store (.threads u)).get t = (w.store (.threads u)).get t) :
    w'.HasIndex u t ↔ w.HasIndex u t := by
  unfold Backend.HasIndex
  rw [h]

theorem hasIndex_other (hl : ¬ i.lists u t) (hu : ¬ i.unlists u t) :
    (handle S i w).2.HasIndex u t ↔ w.HasIndex u t := by
  cases i with
  | put ns s e =>
    refine hasIndex_congr (Backend.get_put_of_ne ?_)
    rintro ⟨rfl, rfl⟩
    exact hl (decide_eq_true ⟨rfl, rfl⟩)
  | delete ns s =>
    refine hasIndex_congr (Backend.get_delete_of_ne ?_)
    rintro ⟨rfl, rfl⟩
    exact hu (decide_eq_true ⟨rfl, rfl⟩)
  | embed text =>
    exact hasIndex_congr (congrArg (Dict.get · t) (congrFun (w.store_embed S text) _))
  | _ => exact Iff.rfl

end Effects

/-! ## What comes before what -/

section Order
variable {u t : String}

theorem keeps_of_shape {i : Call} (h : ChatShape u t i) : i.Keeps := by
  cases i with
  | put ns =>
    cases ns with
    | threads v =>
      obtain ⟨rfl, rfl, -, he⟩ := h
      exact he
    | _ => trivial
  | delete | deleteThread => cases h
  | _ => trivial

theorem guards_checkpointThreadId {α : Type} {B C : Call → Prop} {f : String → Act α} (hC : ¬ C (.get (.threads u) t))
    (hf : (f (checkpointKey u t)).Guards B C) : (checkpointThreadId u t >>= f).Guards B C := by
  refine .seq (only_checkpointThreadId hC) ?_
  rintro _ rfl
  exact hf

/-- A chat saves no transcript before it puts its entry. -/
theorem guards_chat (ag : Agent) (message : String) :
    (ag.chat u t message).Guards (fun i => i.lists u t) (fun i => i.saves (checkpointKey u t)) := by
  unfold Agent.chat recordThread
  simp only [bind_assoc]
  refine guards_checkpointThreadId (by simp [CallOn.saves]) (guards_checkpointThreadId (by simp [CallOn.saves]) ?_)
  exact .call (by simp [CallOn.saves]) (fun now => .first (decide_eq_true ⟨rfl, rfl⟩))

/-- Deleting transcripts and entries pair by pair keeps the order of each pair. -/
theorem guards_deleteThreads (threads : List String) :
    (deleteThreads u (threads.zip (threads.map (checkpointKey u)))).Guards
      (fun i => i.drops (checkpointKey u t)) (fun i => i.unlists u t) := by
  induction threads with
  | nil => exact .pure
  | cons s threads ih =>
    by_cases hs : s = t
    · subst hs
      exact .first (decide_eq_true rfl)
    · exact .call (by simp [CallOn.unlists]) (fun _ => .call (by simp [CallOn.unlists, hs]) (fun _ => ih))

/-- `forget_thread` deletes no entry before its transcript ... -/
theorem guards_forgetThread (rounds : Nat) :
    (forgetThread rounds u t).Guards (fun i => i.drops (checkpointKey u t)) (fun i => i.unlists u t) := by
  refine guards_checkpointThreadId (by simp [CallOn.unlists]) ?_
  refine .seq (only_allKeys (.memories u) (by simp [CallOn.unlists]) rounds) (fun memories _ => ?_)
  refine .seq (only_deleteAll (.memories u) (by simp [CallOn.unlists]) _) (fun _ _ => ?_)
  exact .first (decide_eq_true rfl)

/-- ... and neither does `forget_user`. -/
theorem guards_forgetUser (rounds : Nat) :
    (forgetUser rounds u).Guards (fun i => i.drops (checkpointKey u t)) (fun i => i.unlists u t) := by
  refine .seq (only_knownThreads (by simp [CallOn.unlists]) rounds) (fun threads _ => ?_)
  refine .seq (only_checkpointIds (by simp [CallOn.unlists]) threads) ?_
  rintro _ rfl
  refine .seq (only_allKeys (.memories u) (by simp [CallOn.unlists]) rounds) (fun memories _ => ?_)
  refine .seq (only_deleteAll (.memories u) (by simp [CallOn.unlists]) _) (fun _ _ => ?_)
  refine .seq (only_allKeys (.quarantine u) (by simp [CallOn.unlists]) rounds) (fun quarantined _ => ?_)
  refine .seq (only_deleteAll (.quarantine u) (by simp [CallOn.unlists]) _) (fun _ _ => ?_)
  exact .bind (guards_deleteThreads threads) (fun _ => .pure)

end Order

/-! ## What is left -/

section Listed
variable {S : Side → Services} {ag : Agent} {rounds : Nat} {u t message : String} {op : Op} {w : World} {c : Overlap}

/-- What the two operations' calls have to do with the conversation. -/
structure Ordered (u t : String) (past : List (Event Call CallOn.Ans World)) : Prop where
  /-- Every entry put for the conversation has its key. -/
  keeps : ∀ e ∈ past, e.call.lists u t → e.call.Keeps
  listed_first : (∃ e ∈ past, e.call.saves (checkpointKey u t)) → ∃ e ∈ past, e.call.lists u t
  dropped_first : (∃ e ∈ past, e.call.unlists u t) → ∃ e ∈ past, e.call.drops (checkpointKey u t)

theorem ForgetCall.not_lists {i : Call} (h : ForgetCall u i) : ¬ i.lists u t := by
  intro hl
  cases i with
  | put => cases h
  | _ => cases hl

theorem ForgetCall.not_saves {i : Call} (h : ForgetCall u i) (c : String) : ¬ i.saves c := by
  intro hs
  cases i with
  | saveState => cases h
  | _ => cases hs

theorem CallOn.Keeps.not_unlists {i : Call} (h : i.Keeps) : ¬ i.unlists u t := by
  intro hu
  cases i with
  | delete => cases h
  | _ => cases hu

theorem ordered_overlap (hop : op = .forgetUser u ∨ op = .forgetThread u t)
    (hr : Overlaps S (fun _ _ _ _ => True) (ag.overlap rounds (.chat u t message) op w) c) :
    Ordered u t c.past := by
  have hleft : ∀ e ∈ c.past, e.side = .left → e.call.Keeps :=
    (hr.only .left (A := fun _ _ => True) (Q := fun _ => True)
      (.map _ ((only_chat (shape_chats u t) ag message).mono (fun _ => keeps_of_shape) (fun _ _ => trivial))) rfl
      (fun _ _ _ => trivial)).2
  have hright : ∀ e ∈ c.past, e.side = .right → ForgetCall u e.call := by
    refine (hr.only .right (A := fun _ _ => True) (Q := fun _ => True) ?_ rfl (fun _ _ _ => trivial)).2
    rcases hop with rfl | rfl
    · exact .map _ (only_forgetUser rounds)
    · exact .map _ (only_forgetThread rounds t)
  have hguards : ((ag.overlap rounds (.chat u t message) op w).prog .right).Guards
      (fun i => i.drops (checkpointKey u t)) (fun i => i.unlists u t) := by
    rcases hop with rfl | rfl
    · exact .map _ (guards_forgetUser rounds)
    · exact .map _ (guards_forgetThread rounds)
  refine ⟨fun e he hl => ?_, fun ⟨e, he, hs⟩ => ?_, fun ⟨e, he, hu⟩ => ?_⟩
  · cases hside : e.side with
    | left => exact hleft e he hside
    | right => exact absurd hl (hright e he hside).not_lists
  · rcases hr.guards .left (.map _ (guards_chat ag message)) rfl with ⟨d, hd, -, hl⟩ | ⟨-, hnone⟩
    · exact ⟨d, hd, hl⟩
    · cases hside : e.side with
      | left => exact absurd hs (hnone e he hside)
      | right => exact absurd hs ((hright e he hside).not_saves _)
  · rcases hr.guards .right hguards rfl with ⟨d, hd, -, hl⟩ | ⟨-, hnone⟩
    · exact ⟨d, hd, hl⟩
    · cases hside : e.side with
      | left => exact absurd hu (hleft e he hside).not_unlists
      | right => exact absurd hu (hnone e he hside)

/-- A transcript that is in the index is found and deleted by `forget_user`, if that returns. -/
theorem Backend.Listed.forgotten (hw : w.Listed u t) (S : Services) (i : Input) {r : Outcome} {w' : World}
    (h : ag.perform S (.forgetUser u) (w.given i) = (.ok r, w')) : w'.checkpoints (checkpointKey u t) = none := by
  have hmap : ag.perform S (.forgetUser u) (w.given i) = _ := exec_map S (w.given i) _ _
  rw [hmap] at h
  have hsize : ((w.given i).store (.threads u)).size < (w.given i).rounds u := by
    unfold Backend.rounds
    omega
  by_cases hl : ∃ s ∈ ((w.given i).store (.threads u)).keys, (w.given i).Legacy u s
  · rw [show (Op.forgetUser u).rounds (w.given i) = (w.given i).rounds u from rfl,
      exec_forgetUser_error S (w.given i) u hsize hl] at h
    cases h
  · rw [show (Op.forgetUser u).rounds (w.given i) = (w.given i).rounds u from rfl,
      exec_forgetUser_ok S (w.given i) u (le_refl _) (fun s hs hlegacy => hl ⟨s, hs, hlegacy⟩)] at h
    cases h
    show (if _ then none else w.checkpoints (checkpointKey u t)) = none
    split
    · rfl
    · next hnot =>
      by_contra hsome
      obtain ⟨e, hget, -⟩ := hw hsome
      exact hnot (List.mem_map.2 ⟨t, Dict.mem_keys_iff.2 ⟨e, hget⟩, rfl⟩)

/-- A chat and a deletion at once leave a transcript without an entry exactly
if the chat saved it after it was deleted and its entry was deleted after the
chat put it. Otherwise a later `forget_user` finds it. -/
theorem chat_forget_listed_iff (hop : op = .forgetUser u ∨ op = .forgetThread u t) (hw : w.Listed u t)
    (hr : Overlaps S (fun _ _ _ _ => True) (ag.overlap rounds (.chat u t message) op w) c) :
    (c.state.Listed u t ↔
      ¬ (Latest (fun e => e.call.saves (checkpointKey u t)) (fun e => e.call.drops (checkpointKey u t)) c.past ∧
        Latest (fun e => e.call.unlists u t) (fun e => e.call.lists u t) c.past)) ∧
    (c.state.Listed u t → ∀ S' i r w', ag.perform S' (.forgetUser u) (c.state.given i) = (.ok r, w') →
      w'.checkpoints (checkpointKey u t) = none) := by
  have hord := ordered_overlap hop hr
  have htranscript := hr.toggle (T := Backend.HasTranscript u t) (p := fun e => e.call.saves (checkpointKey u t))
    (q := fun e => e.call.drops (checkpointKey u t)) rfl
    (fun e _ hs => hasTranscript_saves (S e.side) hs) (fun e _ hd => hasTranscript_drops (S e.side) hd)
    (fun e _ hs hd => hasTranscript_other (S e.side) hs hd)
  have hindex := hr.toggle (T := Backend.HasIndex u t) (p := fun e => e.call.lists u t)
    (q := fun e => e.call.unlists u t) rfl
    (fun e he hl => hasIndex_lists (S e.side) hl (hord.keeps e he hl)) (fun e _ hu => hasIndex_unlists (S e.side) hu)
    (fun e _ hl hu => hasIndex_other (S e.side) hl hu)
  have hdisjoint : ∀ e : Event Call CallOn.Ans World, e.call.unlists u t → ¬ e.call.lists u t := by
    rintro ⟨_, i, _, _⟩ hu
    cases i with
    | delete => simp [CallOn.lists]
    | _ => cases hu
  refine ⟨⟨fun hl ⟨hsaved, hunlisted⟩ => ?_, fun hnot htr => ?_⟩, fun hl S' i r w' => hl.forgotten S' i⟩
  · -- the transcript is there, so the entry is, too: but its deletion was last
    obtain ⟨e, he, hu⟩ := hunlisted.exists
    rcases hindex.1 (hl (htranscript.2 (.inl hsaved))) with hlisted | ⟨hnone, -⟩
    · exact hunlisted.not_both hdisjoint hlisted
    · exact (hnone e he).2 hu
  · by_contra hno
    rcases htranscript.1 htr with hsaved | ⟨hnone, hold⟩
    · obtain ⟨e, he, hl⟩ := hord.listed_first hsaved.exists
      rcases latest_or (p := fun e => e.call.unlists u t) (q := fun e => e.call.lists u t) ⟨e, he, .inr hl⟩
        with hunlisted | hlisted
      · exact hnot ⟨hsaved, hunlisted⟩
      · exact hno (hindex.2 (.inl hlisted))
    · -- neither saved nor deleted on the way, so no entry was deleted
      have hkept : ∀ e ∈ c.past, ¬ e.call.unlists u t := by
        intro e he hu
        obtain ⟨d, hd, hdrop⟩ := hord.dropped_first ⟨e, he, hu⟩
        exact (hnone d hd).2 hdrop
      by_cases hl : ∃ e ∈ c.past, e.call.lists u t
      · obtain ⟨e, he, hl⟩ := hl
        rcases latest_or (p := fun e => e.call.unlists u t) (q := fun e => e.call.lists u t) ⟨e, he, .inr hl⟩
          with hunlisted | hlisted
        · obtain ⟨d, hd, hu⟩ := hunlisted.exists
          exact hkept d hd hu
        · exact hno (hindex.2 (.inl hlisted))
      · exact hno (hindex.2 (.inr ⟨fun e he => ⟨fun h => hl ⟨e, he, h⟩, hkept e he⟩, hw hold⟩))

end Listed

end Engram

/-! ## A chat and a forget-me -/

namespace Engram

open Interleave Backend

attribute [local instance] ascii

/-- On an empty backend. -/
def chatAndForget : Overlap :=
  Agent.overlap ⟨⟨5⟩, .manager lenient, true⟩ 3 (.chat "alice" "t1" "hi") (.forgetUser "alice")
    (Backend.empty.given (.at 1 'a'))

/-- The chat up to and including its index entry, all of the deletion, the rest of the chat. -/
def forgetBetween : List Side := .replicate 4 .left ++ .replicate 7 .right ++ .replicate 13 .left

/-- The transcript is then saved, and its entry gone. -/
theorem chat_forget_orphan : ∃ c, Overlaps (fun _ => teamBackend) (fun _ _ _ _ => True) chatAndForget c ∧
    c.Finished ∧ ¬ c.state.Listed "alice" "t1" := by
  refine ⟨play (fun _ => handle teamBackend) forgetBetween chatAndForget, reach_play (meets_true _ _),
    ⟨by decide +kernel, by decide +kernel⟩, fun hl => ?_⟩
  have htranscript :
      (play (fun _ => handle teamBackend) forgetBetween chatAndForget).state.HasTranscript "alice" "t1" := by
    have h : ((play (fun _ => handle teamBackend) forgetBetween chatAndForget).state.checkpoints
        (checkpointKey "alice" "t1")).isSome := by decide +kernel
    exact Option.isSome_iff_ne_none.1 h
  obtain ⟨e, hget, -⟩ := hl htranscript
  have hnone : ((play (fun _ => handle teamBackend) forgetBetween chatAndForget).state.store
    (.threads "alice")).get "t1" = none := by decide +kernel
  cases hnone.symm.trans hget

/-- All of the deletion, then all of the chat: the transcript is there, with its entry. -/
theorem chat_forget_listed_iff_apart : ∃ c, Overlaps (fun _ => teamBackend) (fun _ _ _ _ => True) chatAndForget c ∧
    c.Finished ∧ (c.state.checkpoints (checkpointKey "alice" "t1")).isSome ∧ c.state.Listed "alice" "t1" := by
  have hr : Overlaps (fun _ => teamBackend) (fun _ _ _ _ => True) chatAndForget
      (play (fun _ => handle teamBackend) (.replicate 7 .right ++ .replicate 17 .left) chatAndForget) :=
    reach_play (meets_true _ _)
  have hempty : (Backend.empty.given (.at 1 'a')).Listed "alice" "t1" := fun h => absurd rfl h
  refine ⟨_, hr, ⟨by decide +kernel, by decide +kernel⟩, by decide +kernel, ?_⟩
  exact (chat_forget_listed_iff (.inl rfl) hempty hr).1.2 (by decide +kernel)

end Engram
