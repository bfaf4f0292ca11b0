import Engram.Chats
import Engram.Legacy
import Engram.Transcripts
import Engram.Users
import Engram.Lib.Pool
/-!
# Requests served at once

The server runs each request in a thread of its own, over one store, one
checkpointer and one agent. Here any number of requests of any subjects are
served at once, one call of one of them at a time, in any order, and each may
stop anywhere. Each call is answered by components of its own. The clock and the
id generator answer as they like, but never with an earlier time or a used id.
-/

namespace Engram

open Backend Text MemoryManager

variable [Host]

/-! ## Serving -/

/-- What a call may be answered: by some components in `P`, which need not be those
of the call before, with valid readings and ids. -/
def Answers (P : Services → Prop) (i : Call) (w : World) (o : i.Ans) (w' : World) : Prop :=
  ∃ S, P S ∧ ∃ j : Input, j.Valid w ∧ handle S i (w.given j) = (o, w')

/-- `Agent.serve`, before the response to an exception. -/
def Agent.serving (ag : Agent) (rounds : Nat) (subject : Option String) (r : Request) : Act Response :=
  if ¬ r.wellFormed then return .error 422 "string_too_short"
  else if ¬ owns subject r.userId then return .error 403 "Cannot access another user's data"
  else ag.route rounds r

/-- A request as the server receives it; `rounds` bounds the paging loops of deletion. -/
structure Arrival where
  subject : Option String
  request : Request
  rounds : Nat

abbrev Serving (κ : Type) := Pool κ Call CallOn.Ans Error Response World

/-- All requests are there, none has made a call. -/
def Serving.start {κ : Type} (ag : Agent) (arrivals : κ → Arrival) : Serving κ where
  prog k := ag.serving (arrivals k).rounds (arrivals k).subject (arrivals k).request
  state := .empty

section Serving
variable {P : Services → Prop} {S : Services} {w w' : World} {i : Call} {o : i.Ans} (ag : Agent)

theorem serve_eq (S : Services) (subject : Option String) (r : Request) (w : World) : ag.serve S subject r w =
    (.of (exec S (ag.serving (w.rounds r.userId) subject r) w).1,
    (exec S (ag.serving (w.rounds r.userId) subject r) w).2) := by
  unfold Agent.serve Agent.serving
  split
  · rfl
  · split <;> rfl

/-- The clock stands still, and each id is longer than all before. -/
def Input.longer (w : World) : Input where
  clock _ := w.now
  ids n := String.ofList (List.replicate (w.issued.length + 1 + n) 'a')

/-- No id is longer than there are ids. -/
def Backend.Counted (w : World) : Prop := ∀ id ∈ w.issued, id.toList.length ≤ w.issued.length

theorem Input.longer_valid (hw : w.Counted) : (Input.longer w).Valid w where
  clock_mono := monotone_const
  now_le := le_refl _
  ids_inj a b h := by
    have hlen := congrArg List.length (String.ofList_injective h)
    simpa using hlen
  ids_new n hn := by
    have hlen := hw _ hn
    simp only [Input.longer, String.toList_ofList, List.length_replicate] at hlen
    omega

/-- There is always an answer. -/
theorem answers_longer (hS : P S) (i : Call) (w : World) (hw : w.Counted) :
    Answers P i w (handle S i (w.given (.longer w))).1 (handle S i (w.given (.longer w))).2 ∧
      (handle S i (w.given (.longer w))).2.Counted := by
  refine ⟨⟨S, hS, _, Input.longer_valid hw, rfl⟩, ?_⟩
  have hsame : ∀ {w' : World}, w'.issued = w.issued → w'.Counted := by
    intro w' h id hid
    rw [h] at hid ⊢
    exact hw id hid
  cases i with
  | uuid4 =>
    intro id hid
    rcases List.mem_cons.1 hid with rfl | hid
    · simp [handle, Backend.issue, Backend.given, Input.longer]
    · exact (hw id hid).trans (Nat.le_succ _)
  | embed text =>
    refine hsame ?_
    change ((w.given (.longer w)).embed S text).2.issued = w.issued
    unfold Backend.embed
    split <;> rfl
  | _ => exact hsame rfl

/-- The programs take turns, and ids grow longer. -/
def Serving.play {κ : Type} [DecidableEq κ] (c : Serving κ) (S : Services) (turns : List (κ × Nat)) : Serving κ :=
  Pool.play (fun i w => handle S i (w.given (.longer w))) c turns

theorem Serving.play_steps {κ : Type} [DecidableEq κ] {c : Serving κ} {turns : List (κ × Nat)} (hS : P S)
    (hw : c.state.Counted) : ∃ made, Steps (Pool.Step (Answers P)) c made (c.play S turns) :=
  Pool.play_steps (answers_longer hS) hw

/-- The calls of a request, as far as they concern the conversations. -/
def Request.Shape : Request → Call → Prop
  | .chat u _ t, i => ChatShape u t i
  | .forgetThread u _, i | .forgetUser u, i => ForgetCall u i
  | _, i => Mute i

theorem Request.Shape.of_makes {r : Request} {i : Call} (h : r.Makes i) : r.Shape i := by
  cases h with
  | forgetUser h | forgetThread h => exact h
  | _ => trivial

theorem only_shape (rounds : Nat) (r : Request) :
    (ag.route rounds r).Only (fun _ _ => True) r.Shape (fun _ => True) := by
  refine only_endpoint ag rounds r ?_ ?_ (fun _ => .of_makes)
  · rintro u message t rfl
    exact (only_chat (shape_chats u t) ag message).mono (fun _ h => h) (fun _ _ => trivial)
  · rintro u text t source rfl -
    exact (only_writer (mute_writes u t) ag.writer text source).mono (fun _ h => h) (fun _ _ => trivial)

/-- A request makes calls on the data of its user only. -/
theorem only_serving_own (rounds : Nat) (subject : Option String) (r : Request) : (ag.serving rounds subject r).Only
    (Answered r.userId (fun _ => True)) (LocalPut r.userId) (fun _ => True) := by
  unfold Agent.serving
  split
  · exact .pure trivial
  · split
    · exact .pure trivial
    · exact only_route ag rounds r

/-- ... which is the subject. -/
theorem only_serving (rounds : Nat) (s : String) (r : Request) : (ag.serving rounds (some s) r).Only
    (Answered s (fun _ => True)) (LocalPut s) (fun _ => True) := by
  unfold Agent.serving
  split
  · exact .pure trivial
  · split
    · exact .pure trivial
    · next howns =>
      have hs : s = r.userId := by simpa [owns] using howns
      rw [hs]
      exact only_route ag rounds r

theorem answers_now_issued (h : Answers P i w o w') : w.now ≤ w'.now ∧ w.issued ⊆ w'.issued := by
  obtain ⟨S, -, j, hj, hh⟩ := h
  have hafter : (w.given j).After (handle S i (w.given j)).2 := after_handle S i _
  rw [hh] at hafter
  exact ⟨hafter.now_le (fed_given hj), hafter.issued⟩

/-- The same readings and ids for two worlds. -/
theorem handle_now_issued {v : World} (j : Input) (hnow : v.now ≤ w.now) (hissued : v.issued ⊆ w.issued) :
    (handle S i (v.given j)).2.now ≤ (handle S i (w.given j)).2.now ∧
      (handle S i (v.given j)).2.issued ⊆ (handle S i (w.given j)).2.issued := by
  cases i with
  | utcnow => exact ⟨le_refl _, hissued⟩
  | uuid4 => exact ⟨hnow, List.cons_subset_cons _ hissued⟩
  | embed text =>
    have hnow' : ∀ x : World, (x.embed S text).2.now = x.now ∧ (x.embed S text).2.issued = x.issued := by
      intro x
      unfold Backend.embed
      split <;> exact ⟨rfl, rfl⟩
    change ((v.given j).embed S text).2.now ≤ ((w.given j).embed S text).2.now ∧
      ((v.given j).embed S text).2.issued ⊆ ((w.given j).embed S text).2.issued
    rw [(hnow' _).1, (hnow' _).1, (hnow' _).2, (hnow' _).2]
    exact ⟨hnow, hissued⟩
  | _ => exact ⟨hnow, hissued⟩

end Serving

/-! ## The cache of embeddings -/

def Backend.uncached (w : World) : World := { w with vectors := .empty }

section Cache
variable {P : Services → Prop} {S : Services} {w v : World}

/-- Only `embed` looks into the cache. -/
theorem handle_uncached (S : Services) {i : Call} (hi : ∀ text, i ≠ .embed text) (w : World) :
    handle S i w.uncached = ((handle S i w).1, (handle S i w).2.uncached) := by
  cases i with
  | embed text => exact absurd rfl (hi text)
  | _ => rfl

theorem vectors_handle (S : Services) {i : Call} (hi : ∀ text, i ≠ .embed text) (w : World) :
    (handle S i w).2.vectors = w.vectors := by
  cases i with
  | embed text => exact absurd rfl (hi text)
  | _ => rfl

theorem uncached_embed (S : Services) (w : World) (text : String) : (w.embed S text).2.uncached = w.uncached := by
  obtain ⟨vs, hvs⟩ := w.embed_eq S text
  rw [hvs]
  rfl

theorem embed_hit {x : Vec} (S : Services) {text : String} (h : w.vectors.get text = some x) :
    w.embed S text = (x, w) := by
  simp [Backend.embed, h]

theorem embed_miss (S : Services) {text : String} (h : w.vectors.get text = none) :
    w.embed S text = (S.embed text, { w with vectors := w.vectors.set text (S.embed text) }) := by
  simp [Backend.embed, h]

theorem get_vectors_embed (S : Services) (w : World) (text text' : String) : (w.embed S text).2.vectors.get text' =
    if text' = text then some (w.embed S text).1 else w.vectors.get text' := by
  cases hget : w.vectors.get text with
  | some x =>
    rw [embed_hit S hget]
    split
    · next h => rw [h, hget]
    · rfl
  | none =>
    rw [embed_miss S hget]
    split
    · next h => rw [h, Dict.get_set_self]
    · next h => exact Dict.get_set_of_ne _ _ h

/-- What the cache of `v` holds, that of `w` holds, too, and all of it was
embedded by components in `P`. -/
structure Cached (P : Services → Prop) (w v : World) : Prop where
  held : ∀ text x, v.vectors.get text = some x → w.vectors.get text = some x
  embedded : ∀ text x, w.vectors.get text = some x → ∃ S, P S ∧ S.embed text = x

/-- What is embedded now was embedded by some components now or before. -/
theorem Cached.embed_by (h : Cached P w v) (hS : P S) (text : String) :
    ∃ S', P S' ∧ S'.embed text = (w.embed S text).1 := by
  cases hw : w.vectors.get text with
  | some x =>
    rw [embed_hit S hw]
    exact h.embedded text x hw
  | none =>
    rw [embed_miss S hw]
    exact ⟨S, hS, rfl⟩

/-- Where `w` embeds, some components embed for `v` alike. -/
theorem Cached.embed_alike (h : Cached P w v) (hS : P S) (text : String) :
    ∃ S', P S' ∧ (v.embed S' text).1 = (w.embed S text).1 := by
  obtain ⟨S', hS', hsame⟩ := h.embed_by hS text
  refine ⟨S', hS', ?_⟩
  cases hv : v.vectors.get text with
  | some x => rw [embed_hit S' hv, embed_hit S (h.held text x hv)]
  | none => rw [embed_miss S' hv, hsame]

theorem Cached.embedded_embed (h : Cached P w v) (hS : P S) (text text' : String) (x : Vec)
    (hx : (w.embed S text).2.vectors.get text' = some x) : ∃ S, P S ∧ S.embed text' = x := by
  rw [get_vectors_embed] at hx
  split at hx
  · next he =>
    obtain rfl := Option.some.inj hx
    rw [he]
    exact h.embed_by hS text
  · exact h.embedded text' x hx

theorem Cached.gone (h : Cached P w v) (hS : P S) (text : String) : Cached P (w.embed S text).2 v := by
  refine ⟨fun text' x hx => ?_, h.embedded_embed hS text⟩
  have hw := h.held text' x hx
  rw [get_vectors_embed]
  split
  · next he => rw [embed_hit S (he ▸ hw)]
  · exact hw

theorem Cached.kept (h : Cached P w v) (hS : P S) {S' : Services} {text : String}
    (hsame : (v.embed S' text).1 = (w.embed S text).1) : Cached P (w.embed S text).2 (v.embed S' text).2 := by
  refine ⟨fun text' x hx => ?_, h.embedded_embed hS text⟩
  rw [get_vectors_embed] at hx ⊢
  split at hx
  · next he => rwa [if_pos he, ← hsame]
  · next he =>
    rw [if_neg he]
    exact h.held text' x hx

end Cache

/-! ## Subjects are isolated -/

/-- The worlds of a run with all requests and of one with the requests of `s` only. -/
structure Shared (P : Services → Prop) (s : String) (w v : World) : Prop where
  store : ∀ ns, ns.user = s → w.store ns = v.store ns
  checkpoints : ∀ t, w.checkpoints (checkpointKey s t) = v.checkpoints (checkpointKey s t)
  matched : w.Matched
  matched' : v.Matched
  cached : Cached P w v
  now_le : v.now ≤ w.now
  issued : v.issued ⊆ w.issued

section Isolation
variable {P : Services → Prop} {S : Services} {s : String} {w w' v : World} {i : Call} {o : i.Ans}

/-- Apart from the cache no components tell them apart. -/
theorem Shared.alike (h : Shared P s w v) (S : Services) : Alike S (View.of s) w.uncached v.uncached where
  store := h.store
  checkpoints := by
    rintro _ ⟨t, rfl⟩
    exact h.checkpoints t
  matched := h.matched.congr (fun _ => rfl)
  matched' := h.matched'.congr (fun _ => rfl)
  sound _ _ hget := by cases hget
  sound' _ _ hget := by cases hget

theorem Shared.of_alike (h : Alike S (View.of s) w.uncached v.uncached) (hcached : Cached P w v) (hnow : v.now ≤ w.now)
    (hissued : v.issued ⊆ w.issued) : Shared P s w v :=
  ⟨h.store, fun t => h.checkpoints _ ⟨t, rfl⟩, h.matched.congr (fun _ => rfl),
    h.matched'.congr (fun _ => rfl), hcached, hnow, hissued⟩

theorem Shared.given (h : Shared P s w v) (j : Input) : Alike S (View.of s) (w.given j).uncached (v.given j).uncached ∧
    (w.given j).Matched ∧ Cached P (w.given j) (v.given j) :=
  ⟨(h.alike S).given j, h.matched.congr (fun _ => rfl), h.cached.held, h.cached.embedded⟩

theorem Shared.gone (hsha : Function.Injective Host.sha256) (h : Shared P s w v) {s' : String} (hs : s' ≠ s)
    (hi : LocalPut s' i) (ha : Answers P i w o w') : Answered s' (fun _ => True) i o ∧ Shared P s w' v := by
  have hlater := answers_now_issued ha
  obtain ⟨S, hS, j, hj, hh⟩ := ha
  obtain ⟨halike, hmatched, hcached⟩ := h.given (S := S) j
  have hanswered := answered_any S hmatched s' i
  have hend : Alike S (View.of s) (handle S i (w.given j)).2.uncached (v.given j).uncached ∧
      Cached P (handle S i (w.given j)).2 (v.given j) := by
    by_cases hembed : ∃ text, i = .embed text
    · obtain ⟨text, rfl⟩ := hembed
      exact ⟨(uncached_embed S (w.given j) text).symm ▸ halike, hcached.gone hS text⟩
    · have hne : ∀ text, i ≠ .embed text := fun text he => hembed ⟨text, he⟩
      have hone := halike.exec_left (u := s') (p := Prog.call i .ret) (Q := fun _ => True)
        (.call ⟨hi.1.avoids hsha hs, hi.2⟩ (fun _ _ => .ret trivial))
      rw [show (exec S (Prog.call i .ret) (w.given j).uncached).2 = (handle S i (w.given j).uncached).2 from rfl,
        handle_uncached S hne] at hone
      refine ⟨hone, ?_, ?_⟩ <;> rw [vectors_handle S hne]
      · exact hcached.held
      · exact hcached.embedded
  rw [hh] at hanswered hend
  have halike' : Alike S (View.of s) w'.uncached v.uncached := { hend.1 with }
  exact ⟨hanswered, .of_alike halike' ⟨hend.2.held, hend.2.embedded⟩ (h.now_le.trans hlater.1)
    (fun _ hx => hlater.2 (h.issued hx))⟩

theorem Shared.kept (h : Shared P s w v) (hi : LocalPut s i) (ha : Answers P i w o w') :
    Answered s (fun _ => True) i o ∧ ∃ v', Answers P i v o v' ∧ Shared P s w' v' := by
  obtain ⟨S, hS, j, hj, hh⟩ := ha
  obtain ⟨halike, hmatched, hcached⟩ := h.given (S := S) j
  have hvalid : j.Valid v :=
    ⟨hj.clock_mono, h.now_le.trans hj.now_le, hj.ids_inj, fun n hn => hj.ids_new n (h.issued hn)⟩
  have hanswered := answered_any S hmatched s i
  rw [hh] at hanswered
  refine ⟨hanswered, ?_⟩
  by_cases hembed : ∃ text, i = .embed text
  · obtain ⟨text, rfl⟩ := hembed
    have ho : ((w.given j).embed S text).1 = o := congrArg Prod.fst hh
    have hw' : ((w.given j).embed S text).2 = w' := congrArg Prod.snd hh
    -- In the other run these components may not answer, but some do alike.
    obtain ⟨S', hS', hsame⟩ := hcached.embed_alike hS text
    obtain ⟨vs, hw⟩ := (w.given j).embed_eq S text
    obtain ⟨vs', hv⟩ := (v.given j).embed_eq S' text
    refine ⟨((v.given j).embed S' text).2, ⟨S', hS', j, hvalid, Prod.ext (hsame.trans ho) rfl⟩,
      .of_alike (S := S) ?_ (hw' ▸ hcached.kept hS hsame) ?_ ?_⟩
    · rwa [uncached_embed, ← hw', uncached_embed]
    · rw [hv, ← hw', hw]
      exact h.now_le
    · rw [hv, ← hw', hw]
      exact h.issued
  · have hne : ∀ text, i ≠ .embed text := fun text he => hembed ⟨text, he⟩
    obtain ⟨hsame, hone, -⟩ := halike.handle ⟨rfl, rfl⟩ hi.1.reads hi.2
    obtain ⟨hnow, hissued⟩ := handle_now_issued (S := S) (i := i) j h.now_le h.issued
    have hvectors := vectors_handle S hne (w.given j)
    simp only [handle_uncached S hne] at hsame hone
    rw [hh] at hsame hone hnow hissued hvectors
    refine ⟨(handle S i (v.given j)).2, ⟨S, hS, j, hvalid, Prod.ext hsame.symm rfl⟩,
      .of_alike hone ⟨?_, ?_⟩ hnow hissued⟩
    · rw [vectors_handle S hne, hvectors]
      exact hcached.held
    · rw [hvectors]
      exact hcached.embedded

end Isolation

/-- Whatever requests are served at once, and in whatever order their calls come:
without those of other subjects there is a run in which the requests of `s` make
the same calls, get the same answers and responses, and leave the same data. -/
theorem concurrent_isolated (hsha : Function.Injective Host.sha256) (P : Services → Prop) (ag : Agent) {κ : Type}
    [DecidableEq κ] (subject : κ → String) (request : κ → Request) (rounds : κ → Nat) (s : String)
    {made : List (Pool.Made κ Call CallOn.Ans)} {c : Serving κ}
    (h : Steps (Pool.Step (Answers P)) (Serving.start ag (fun k => ⟨subject k, request k, rounds k⟩)) made c) :
    ∃ d, Steps (Pool.Step (Answers P)) (Serving.start ag (fun k => ⟨subject k, request k, rounds k⟩))
        (made.filter (fun m => subject m.who = s)) d ∧
      (∀ k, subject k = s → d.prog k = c.prog k) ∧ (∀ ns, ns.user = s → d.state.store ns = c.state.store ns) ∧
      ∀ t, d.state.checkpoints (checkpointKey s t) = c.state.checkpoints (checkpointKey s t) := by
  obtain ⟨d, hd, hsame, hR, -⟩ := Pool.erased (R := Shared P s) (fun k => decide (subject k = s))
    (V := fun k p => p.Only (Answered (subject k) (fun _ => True)) (LocalPut (subject k)) (fun _ => True))
    (fun k i f w o w' v hk hV hR ha => by
      obtain ⟨hi, hf⟩ := hV.of_call
      obtain ⟨ho, hR'⟩ := hR.gone hsha (of_decide_eq_false hk) hi ha
      exact ⟨hf o ho, hR'⟩)
    (fun k i f w o w' v hk hV hR ha => by
      obtain ⟨hi, hf⟩ := hV.of_call
      have hk : subject k = s := of_decide_eq_true hk
      rw [hk] at hi hf
      obtain ⟨ho, v', hv', hR'⟩ := hR.kept hi ha
      exact ⟨hk ▸ hf o ho, v', hv', hR'⟩)
    h (fun k => only_serving ag (rounds k) (subject k) (request k)) (fun _ _ => rfl)
    ⟨fun _ _ => rfl, fun _ => rfl, matched_empty, matched_empty,
      ⟨fun _ _ hget => (by cases hget), fun _ _ hget => (by cases hget)⟩, le_refl _, List.Subset.refl _⟩
  exact ⟨d, hd, fun k hk => hsame k (decide_eq_true hk), fun ns hns => (hR.store ns hns).symm,
    fun t => (hR.checkpoints t).symm⟩

/-! ## No request meets a legacy entry -/

/-- An entry of the index is found with its key. -/
def FoundCanonical : (i : Call) → i.Ans → Prop
  | .get (.threads u) t, found => ∀ e, found = some e → e.checkpointId = some (checkpointKey u t)
  | _, _ => True

/-- It raises no `LegacyThreadError` where entries are found with their keys. -/
def Settled {α : Type} (p : Act α) : Prop := p.Throws FoundCanonical (· ≠ .legacyThread)

/-- Index entries are put with their keys. -/
def IndexPut : Call → Prop
  | .put (.threads u) t e => e.checkpointId = some (checkpointKey u t)
  | _ => True

section Settled
variable {u t : String}

theorem Modern.settled {α : Type} {p : Act α} (hp : Modern p) : Settled p := Prog.Raises.throws hp

theorem settled_checkpointThreadId (u t : String) : Settled (checkpointThreadId u t) := by
  refine .next (fun entry hentry => ?_)
  split
  · next hlegacy =>
    obtain ⟨e, rfl, hne⟩ := hlegacy
    exact absurd (hentry e rfl) hne
  · exact .ret

theorem settled_recordThread (u t : String) : Settled (recordThread u t) :=
  .bind (settled_checkpointThreadId u t) (fun _ => .next (fun _ _ => .next (fun _ _ => .ret)))

theorem settled_chat (ag : Agent) (u t message : String) : Settled (ag.chat u t message) := by
  refine .bind (settled_checkpointThreadId u t) (fun key => .bind (settled_recordThread u t) (fun _ => ?_))
  exact .bind (modern_runGraph ag u t key message).settled (fun _ => .ret)

theorem modern_memoriesOut (ms : List Memory) : Modern (memoriesOut ms) := by
  induction ms with
  | nil => exact .pure
  | cons m ms ih =>
    refine .bind (.bind (returns_isActiveNow m none).modern (fun _ => .pure)) (fun _ => .bind ih (fun _ => .pure))

theorem modern_allKeysFrom (ns : Namespace) (rounds offset : Nat) (out : List (String × ns.Val)) :
    Modern (allKeysFrom ns rounds offset out) := by
  induction rounds generalizing offset out with
  | zero => exact .raise (by decide)
  | succ rounds ih =>
    refine .next (fun page => ?_)
    split
    · exact .pure
    · exact ih _ _

theorem modern_deleteAll (ns : Namespace) (keys : List String) : Modern (deleteAll ns keys) := by
  induction keys with
  | nil => exact .pure
  | cons key keys ih => exact .next (fun _ => ih)

theorem settled_checkpointIds (u : String) (threads : List String) : Settled (checkpointIds u threads) := by
  induction threads with
  | nil => exact .ret
  | cons t threads ih => exact .bind (settled_checkpointThreadId u t) (fun _ => .bind ih (fun _ => .ret))

theorem modern_deleteThreads (u : String) (pairs : List (String × String)) : Modern (deleteThreads u pairs) := by
  induction pairs with
  | nil => exact .pure
  | cons p pairs ih => exact .next (fun _ => .next (fun _ => ih))

theorem settled_route (ag : Agent) (rounds : Nat) (r : Request) : Settled (ag.route rounds r) := by
  have hkeys : ∀ ns, Modern (allKeys rounds ns) := fun ns => modern_allKeysFrom ns rounds 0 []
  cases r with
  | chat u message t =>
    refine .bind (settled_chat ag u t message) (fun trace => .bind (modern_memoriesOut _).settled (fun _ => ?_))
    exact .bind (modern_memoriesOut _).settled (fun _ => .ret)
  | observe u text t source =>
    show Settled (ag.observeRoute u text t source)
    unfold Agent.observeRoute
    split
    · exact .ret
    · exact .bind (modern_writer ag.writer u text t source).settled
        (fun _ => .bind (modern_memoriesOut _).settled (fun _ => .ret))
  | listMemories u includeRetired =>
    refine .next (fun items _ => ?_)
    dsimp only
    split
    · exact .bind .ret (fun _ => .bind (returns_activeOnly _).modern.settled
        (fun _ => .bind (modern_memoriesOut _).settled (fun _ => .ret)))
    · exact .bind (returns_activeOnly _).modern.settled (fun _ => .bind (returns_activeOnly _).modern.settled
        (fun _ => .bind (modern_memoriesOut _).settled (fun _ => .ret)))
  | threadHistory u t =>
    exact .bind (.bind (settled_checkpointThreadId u t) (fun _ => .next (fun _ _ => .ret))) (fun _ => .ret)
  | quarantine u => exact .bind (.next (fun _ _ => .ret)) (fun _ => .ret)
  | forgetUser u =>
    refine .map _ (.bind (.bind (hkeys _).settled (fun _ => .ret)) (fun threads => ?_))
    refine .bind (settled_checkpointIds u threads) (fun ids => .bind (hkeys _).settled (fun _ => ?_))
    refine .bind (modern_deleteAll _ _).settled (fun _ => .bind (hkeys _).settled (fun _ => ?_))
    exact .bind (modern_deleteAll _ _).settled (fun _ => .bind (modern_deleteThreads u _).settled (fun _ => .ret))
  | forgetThread u t =>
    refine .map _ (.bind (settled_checkpointThreadId u t) (fun key => .bind (hkeys _).settled (fun _ => ?_)))
    exact .bind (modern_deleteAll _ _).settled (fun _ => .next (fun _ _ => .next (fun _ _ => .ret)))
  | forgetMemory u id =>
    refine .bind (.next (fun item _ => ?_)) (fun _ => .ret)
    split
    · exact .ret
    · exact .next (fun _ _ => .ret)

theorem settled_serving (ag : Agent) (rounds : Nat) (subject : Option String) (r : Request) :
    Settled (ag.serving rounds subject r) := by
  unfold Agent.serving
  split
  · exact .ret
  · split
    · exact .ret
    · exact settled_route ag rounds r

theorem only_serving_shape (ag : Agent) (rounds : Nat) (subject : Option String) (r : Request) :
    (ag.serving rounds subject r).Only (fun _ _ => True) r.Shape (fun _ => True) := by
  unfold Agent.serving
  split
  · exact .pure trivial
  · split
    · exact .pure trivial
    · exact only_shape ag rounds r

theorem Request.Shape.indexPut {r : Request} {i : Call} (h : r.Shape i) : IndexPut i := by
  cases i with
  | put ns key e =>
    cases ns with
    | threads v =>
      cases r with
      | chat u message t =>
        obtain ⟨rfl, rfl, -, he⟩ := h
        exact he
      | _ => cases h
    | _ => trivial
  | _ => trivial

end Settled

section Canonical
variable {P : Services → Prop} {w w' : World} {i : Call} {o : i.Ans}

theorem Answers.canonical (ha : Answers P i w o w') (hw : w.Canonical) (hi : IndexPut i) :
    FoundCanonical i o ∧ w'.Canonical := by
  obtain ⟨S, -, j, -, hh⟩ := ha
  obtain ⟨rfl, rfl⟩ := Prod.mk.inj hh.symm
  have hsame : (∀ v, (handle S i (w.given j)).2.store (.threads v) = w.store (.threads v)) →
      (handle S i (w.given j)).2.Canonical :=
    fun h v t e hget => hw v t e (h v ▸ hget)
  cases i with
  | get ns key =>
    refine ⟨?_, hsame (fun _ => rfl)⟩
    cases ns with
    | threads v => exact fun e he => hw v key e he
    | _ => trivial
  | put ns key value =>
    refine ⟨trivial, fun v t e hget => ?_⟩
    rcases get_put hget with ⟨rfl, rfl, he⟩ | hget
    · obtain rfl := eq_of_heq he
      exact hi
    · exact hw v t e hget
  | delete ns key => exact ⟨trivial, fun v t e hget => hw v t e (get_delete hget)⟩
  | embed text => exact ⟨trivial, hsame (fun v => congrFun ((w.given j).store_embed S text) _)⟩
  | _ => exact ⟨trivial, hsame (fun _ => rfl)⟩

/-- The invariant: what is stored is in order, and no request has failed over a legacy conversation. -/
theorem matched_serving (ag : Agent) {κ : Type} [DecidableEq κ] (arrivals : κ → Arrival)
    {made : List (Pool.Made κ Call CallOn.Ans)} {c : Serving κ}
    (h : Steps (Pool.Step (Answers P)) (Serving.start ag arrivals) made c) :
    c.state.Matched ∧ c.state.Canonical ∧ ∀ k, Settled (c.prog k) := by
  obtain ⟨hprogs, hstate⟩ := Pool.inv (I := fun w => w.Matched ∧ w.Canonical)
    (W := fun k _ p =>
      p.Only (Answered (arrivals k).request.userId (fun _ => True)) (LocalPut (arrivals k).request.userId)
        (fun _ => True) ∧ p.Only (fun _ _ => True) (arrivals k).request.Shape (fun _ => True) ∧ Settled p)
    (fun k i f w o w' hW hI ha => by
      obtain ⟨hlocal, hf⟩ := hW.1.of_call
      obtain ⟨hshape, hf'⟩ := hW.2.1.of_call
      obtain ⟨ho, hcanonical⟩ := ha.canonical hI.2 hshape.indexPut
      obtain ⟨S, -, j, -, hh⟩ := ha
      have hmatched : (w.given j).Matched := hI.1.congr (fun _ => rfl)
      have hanswered := answered_any S hmatched (arrivals k).request.userId i
      have hmatched' := matched_puts S hmatched hlocal.2
      rw [hh] at hanswered hmatched'
      exact ⟨⟨hf o hanswered, hf' o trivial, hW.2.2.of_call o ho⟩, hmatched', hcanonical⟩)
    (fun _ _ _ _ _ _ _ _ _ _ _ h => h) h
    (fun k => ⟨only_serving_own ag (arrivals k).rounds (arrivals k).subject (arrivals k).request,
      only_serving_shape ag _ _ _, settled_serving ag _ _ _⟩) ⟨matched_empty, accounted_empty.canonical⟩
  exact ⟨hstate.1, hstate.2, fun k => (hprogs k).2.2⟩

end Canonical

/-- Whatever is served at once, wherever it is stopped: every memory lies under
its id with the user it is about, every entry of the index has the key of its
conversation, and no request has failed over a legacy conversation. -/
theorem concurrent_canonical (P : Services → Prop) (ag : Agent) {κ : Type} [DecidableEq κ] (arrivals : κ → Arrival)
    {made : List (Pool.Made κ Call CallOn.Ans)} {c : Serving κ}
    (h : Steps (Pool.Step (Answers P)) (Serving.start ag arrivals) made c) :
    c.state.Matched ∧ c.state.Canonical ∧ ∀ k, c.prog k ≠ .raise .legacyThread := by
  obtain ⟨hmatched, hcanonical, hsettled⟩ := matched_serving ag arrivals h
  refine ⟨hmatched, hcanonical, fun k hk => ?_⟩
  have hraise := hsettled k
  rw [hk] at hraise
  exact hraise.of_raise rfl

/-! ## No transcript without its entry -/

/-- It deletes conversations of `u`. -/
def Request.deletes (u : String) : Request → Prop
  | .forgetUser v | .forgetThread v _ => v = u
  | _ => False

section Listed
variable {P : Services → Prop} {u t : String} {r : Request} {i : Call} {w w' : World} {o : i.Ans}

theorem Request.Shape.spares (hsha : Function.Injective Host.sha256) (h : r.Shape i) (hr : ¬ r.deletes u) :
    ¬ i.drops (checkpointKey u t) ∧ ¬ i.unlists u t := by
  have hforget : ∀ v, v ≠ u → ForgetCall v i → ¬ i.drops (checkpointKey u t) ∧ ¬ i.unlists u t := by
    intro v hv hi
    cases i with
    | deleteThread c =>
      obtain ⟨t', rfl⟩ := hi
      refine ⟨fun hd => hv (checkpointKey_inj hsha (of_decide_eq_true hd)).1, by simp [CallOn.unlists]⟩
    | delete ns key =>
      refine ⟨by simp [CallOn.drops], fun hl => ?_⟩
      cases ns with
      | threads v' => exact hv (hi.symm.trans (of_decide_eq_true hl).1)
      | _ => cases hl
    | _ => simp [CallOn.drops, CallOn.unlists]
  have hmute : Mute i → ¬ i.drops (checkpointKey u t) ∧ ¬ i.unlists u t := by
    intro hi
    cases i with
    | delete ns key =>
      cases ns with
      | threads => cases hi
      | _ => simp [CallOn.drops, CallOn.unlists]
    | deleteThread => cases hi
    | _ => simp [CallOn.drops, CallOn.unlists]
  cases r with
  | chat v message t' =>
    cases i with
    | delete | deleteThread => cases h
    | _ => simp [CallOn.drops, CallOn.unlists]
  | forgetUser v => exact hforget v hr h
  | forgetThread v t' => exact hforget v hr h
  | _ => exact hmute h

theorem keeps_of_lists (hi : IndexPut i) (hl : i.lists u t) : i.Keeps := by
  cases i with
  | put ns =>
    cases ns with
    | threads => exact hi
    | _ => cases hl
  | _ => cases hl

/-- An entry stays while nobody deletes it. -/
theorem Answers.hasIndex (ha : Answers P i w o w') (hu : ¬ i.unlists u t) (hi : IndexPut i) (hw : w.HasIndex u t) :
    w'.HasIndex u t := by
  obtain ⟨S, -, j, -, hh⟩ := ha
  rw [← show (handle S i (w.given j)).2 = w' from congrArg Prod.snd hh]
  by_cases hl : i.lists u t
  · exact hasIndex_lists S hl (keeps_of_lists hi hl)
  · exact (hasIndex_other S hl hu).2 hw

/-- A request saves the transcript only after it put the entry. -/
theorem guards_serving (hsha : Function.Injective Host.sha256) (ag : Agent) (rounds : Nat) (subject : Option String)
    (r : Request) :
    (ag.serving rounds subject r).Guards (fun i => i.lists u t) (fun i => i.saves (checkpointKey u t)) := by
  have hnever : (∀ i, r.Shape i → ¬ i.saves (checkpointKey u t)) →
      (ag.route rounds r).Guards (fun i => i.lists u t) (fun i => i.saves (checkpointKey u t)) :=
    fun h => Prog.Guards.of_only ((only_shape ag rounds r).mono h (fun _ h => h))
  unfold Agent.serving
  split
  · exact .pure
  split
  · exact .pure
  cases r with
  | chat v message t' =>
    by_cases hvt : v = u ∧ t' = t
    · obtain ⟨rfl, rfl⟩ := hvt
      have hout : ∀ ms, (memoriesOut ms).Only (fun _ _ => True) (fun i => ¬ i.saves (checkpointKey v t'))
          (fun _ => True) :=
        fun ms => only_memoriesOut (by simp [CallOn.saves]) ms
      refine (guards_chat ag message).bind (fun trace => .of_only (Q := fun _ => True) ?_)
      exact (hout _).seq (fun _ _ => (hout _).seq (fun _ _ => .pure trivial))
    · refine hnever (fun i hi hs => ?_)
      cases i with
      | saveState c ms =>
        obtain rfl := hi
        obtain ⟨rfl, rfl⟩ := checkpointKey_inj hsha (of_decide_eq_true hs)
        exact hvt ⟨rfl, rfl⟩
      | _ => cases hs
  | _ =>
    refine hnever (fun i hi hs => ?_)
    cases i with
    | saveState => cases hi
    | _ => cases hs

end Listed

/-- While no request deletes conversations of `u`, every transcript of `u` is in
the index, in every state of every concurrent run: a delete can find them all. -/
theorem concurrent_listed (hsha : Function.Injective Host.sha256) (P : Services → Prop) (ag : Agent) {κ : Type}
    [DecidableEq κ] (arrivals : κ → Arrival) {made : List (Pool.Made κ Call CallOn.Ans)} {c : Serving κ} {u : String}
    (h : Steps (Pool.Step (Answers P)) (Serving.start ag arrivals) made c)
    (hkeep : ∀ k, ¬ (arrivals k).request.deletes u) (t : String) : c.state.Listed u t := by
  refine (Pool.inv (I := fun w => w.Listed u t)
    (W := fun k w p => p.Only (fun _ _ => True) (arrivals k).request.Shape (fun _ => True) ∧
      (w.HasIndex u t ∨ p.Guards (fun i => i.lists u t) (fun i => i.saves (checkpointKey u t))))
    (fun k i f w o w' hW hI ha => ?_) (fun k i f w o w' j p hW _ ha hp => ?_) h
    (fun k => ⟨only_serving_shape ag _ _ _, .inr (guards_serving hsha ag _ _ _)⟩) (fun hno => absurd rfl hno)).2
  · obtain ⟨hshape, hf⟩ := hW.1.of_call
    obtain ⟨hdrops, hunlists⟩ := hshape.spares hsha (hkeep k) (t := t)
    have hindex := ha.hasIndex hunlists hshape.indexPut (u := u) (t := t)
    obtain ⟨S, -, j, -, hh⟩ := ha
    have hstate : (handle S i (w.given j)).2 = w' := congrArg Prod.snd hh
    -- The entry is there, or it is put now, or the transcript is not saved yet.
    rcases hW.2 with hw | hguards
    · exact ⟨⟨hf o trivial, .inl (hindex hw)⟩, fun _ => hindex hw⟩
    rcases hguards.of_call with hl | ⟨hs, hguards⟩
    · have hput : w'.HasIndex u t := hstate ▸ hasIndex_lists S hl (keeps_of_lists hshape.indexPut hl)
      exact ⟨⟨hf o trivial, .inl hput⟩, fun _ => hput⟩
    · refine ⟨⟨hf o trivial, .inr (hguards o)⟩, fun htranscript => hindex (hI ?_)⟩
      rw [← hstate] at htranscript
      exact (hasTranscript_other S (w := w.given j) hs hdrops).1 htranscript
  · obtain ⟨hshape, -⟩ := hW.1.of_call
    exact ⟨hp.1, hp.2.imp_left (ha.hasIndex (hshape.spares hsha (hkeep k)).2 hshape.indexPut)⟩

end Engram

/-! ## Two chats at once -/

namespace Engram

open Backend

attribute [local instance] ascii

def twoChats (k : Bool) : Arrival := ⟨some (cond k "alice" "bob"), .chat (cond k "alice" "bob") "hi" "t1", 0⟩

def chattingAgent : Agent := ⟨⟨5⟩, .manager lenient, true⟩

/-- Alice's chat begins, Bob's is served, and hers goes on. -/
def chatting : Serving Bool :=
  (Serving.start chattingAgent twoChats).play teamBackend [(true, 6), (false, 100), (true, 100)]

theorem chatting_steps :
    ∃ made, Steps (Pool.Step (Answers (· = teamBackend))) (Serving.start chattingAgent twoChats) made chatting :=
  Serving.play_steps rfl (fun id hid => by cases hid)

/-- Alice's chat, with her memories and her transcript, is the same without Bob's. -/
theorem concurrent_isolated_chats :
    ∃ made c d, Steps (Pool.Step (Answers (· = teamBackend))) (Serving.start chattingAgent twoChats) made c ∧
    Steps (Pool.Step (Answers (· = teamBackend))) (Serving.start chattingAgent twoChats)
      (made.filter (fun m => cond m.who "alice" "bob" = "alice")) d ∧
    d.prog true = c.prog true ∧
      d.state.checkpoints (checkpointKey "alice" "t1") = c.state.checkpoints (checkpointKey "alice" "t1") := by
  obtain ⟨made, hmade⟩ := chatting_steps
  obtain ⟨d, hd, hprog, -, hcheckpoints⟩ := concurrent_isolated digest_injective (· = teamBackend) chattingAgent
    (fun k => cond k "alice" "bob") (fun k => .chat (cond k "alice" "bob") "hi" "t1") (fun _ => 0) "alice" hmade
  exact ⟨made, _, d, hmade, hd, hprog true rfl, hcheckpoints "t1"⟩

theorem concurrent_canonical_chats :
    ∃ made c, Steps (Pool.Step (Answers (· = teamBackend))) (Serving.start chattingAgent twoChats) made c ∧
    c.state.Matched ∧ c.state.Canonical ∧ ∀ k, c.prog k ≠ .raise .legacyThread := by
  obtain ⟨made, hmade⟩ := chatting_steps
  exact ⟨made, _, hmade, concurrent_canonical (· = teamBackend) chattingAgent twoChats hmade⟩

theorem concurrent_listed_chats :
    ∃ made c, Steps (Pool.Step (Answers (· = teamBackend))) (Serving.start chattingAgent twoChats) made c ∧
    c.state.HasTranscript "alice" "t1" ∧ c.state.Listed "alice" "t1" := by
  obtain ⟨made, hmade⟩ := chatting_steps
  have hkeep : ∀ k, ¬ (twoChats k).request.deletes "alice" := fun k h => h
  have hsaved : (chatting.state.checkpoints (checkpointKey "alice" "t1")).isSome := by decide +kernel
  exact ⟨made, _, hmade, Option.isSome_iff_ne_none.1 hsaved,
    concurrent_listed digest_injective (· = teamBackend) chattingAgent twoChats hmade hkeep "t1"⟩

end Engram
