import Engram.Noninterference
/-!
# Users do not interfere

Requests of any number of subjects are served by one agent over one store, one
checkpointer and one cache of embeddings. Each endpoint makes calls on the data
of the user it names only, and that is the subject.
-/

namespace Engram

open Backend Text MemoryManager

variable [Host]

/-! ## Calls of one user -/

/-- The data of `u`. -/
def View.of (u : String) : View where
  ns ns := ns.user = u
  thread c := ∃ t, c = checkpointKey u t

/-- The call is on data of `u`, if on any. -/
def Local (u : String) : Call → Prop
  | .get ns _ | .search ns _ _ _ | .put ns _ _ | .delete ns _ => ns.user = u
  | .getState c | .saveState c _ | .deleteThread c => ∃ t, c = checkpointKey u t
  | _ => True

/-- ... and what it puts are memories of `u`. -/
def LocalPut (u : String) (i : Call) : Prop := Local u i ∧ PutsOwn u (fun _ => True) i

section Local
variable {u v t : String} {G : String → Prop} {i : Call}

theorem Local.reads (h : Local u i) : (View.of u).Reads i := by
  cases i with
  | get | search | getState => exact h
  | _ => trivial

/-- Different users have different namespaces, and different checkpoint keys. -/
theorem Local.avoids (hsha : Function.Injective Host.sha256) (h : Local v i) (hv : v ≠ u) : (View.of u).Avoids i := by
  have hns : ∀ ns : Namespace, ns.user = v → ¬ (View.of u).ns ns := fun ns hns he => hv (hns.symm.trans he)
  have hthread : ∀ c, (∃ t, c = checkpointKey v t) → ¬ (View.of u).thread c := by
    rintro _ ⟨t, rfl⟩ ⟨t', he⟩
    exact hv (checkpointKey_inj hsha he).1
  cases i with
  | put ns | delete ns => exact hns ns h
  | saveState c | deleteThread c => exact hthread c h
  | _ => trivial

theorem LocalPut.of_write (h : WriteCall u G i) : LocalPut u i := by
  refine ⟨?_, ?_⟩
  · cases i with
    | search ns =>
      cases ns with
      | memories => exact h
      | _ => cases h
    | put ns =>
      cases ns with
      | memories => exact h.1
      | quarantine => exact h
      | threads => cases h
    | get | delete | getState | saveState | deleteThread | invoke => cases h
    | _ => trivial
  · cases i with
    | put ns =>
      cases ns with
      | memories => exact ⟨h.1, h.2.1, h.2.2.1, trivial⟩
      | _ => trivial
    | _ => trivial

theorem LocalPut.of_chat (h : ChatCall u t G i) : LocalPut u i := by
  cases i with
  | get ns =>
    cases ns with
    | threads => exact ⟨h.1, trivial⟩
    | _ => cases h
  | put ns k m =>
    cases ns with
    | threads => exact ⟨h.1, trivial⟩
    | _ => exact .of_write (G := G) h
  | getState c => exact ⟨⟨t, h⟩, trivial⟩
  | saveState c => exact ⟨⟨t, h⟩, trivial⟩
  | invoke => exact ⟨trivial, trivial⟩
  | _ => exact .of_write (G := G) h

theorem LocalPut.of_forget (h : ForgetCall u i) : LocalPut u i := by
  refine ⟨?_, .of_forget h⟩
  cases i with
  | get | delete | deleteThread => exact h
  | search ns q =>
    cases q with
    | none => exact h
    | some => cases h
  | put | getState | saveState => cases h
  | _ => trivial

end Local

/-! ## Endpoints -/

section Routes
variable {A : (i : Call) → i.Ans → Prop} {P : Call → Prop}

theorem only_memoriesOut (h : P .utcnow) (ms : List Memory) : (memoriesOut ms).Only A P (fun _ => True) := by
  induction ms with
  | nil => exact .pure trivial
  | cons m ms ih =>
    refine .seq (R := fun _ => True) ?_ (fun _ _ => .seq ih (fun _ _ => .pure trivial))
    exact .seq (only_isActiveNow h m none) (fun _ _ => .pure trivial)

/-- The calls of an endpoint, apart from those of the chat and of the write path. -/
inductive Request.Makes : Request → Call → Prop
  | chat {u message t} : Makes (.chat u message t) .utcnow
  | observe {u text t source} : Makes (.observe u text t source) .utcnow
  | active {u all} : Makes (.listMemories u all) .utcnow
  | memories {u all limit} : Makes (.listMemories u all) (.search (.memories u) none limit 0)
  | quarantine {u limit} : Makes (.quarantine u) (.search (.quarantine u) none limit 0)
  | entry {u t} : Makes (.threadHistory u t) (.get (.threads u) t)
  | transcript {u t} : Makes (.threadHistory u t) (.getState (checkpointKey u t))
  | forgetUser {u i} (h : ForgetCall u i) : Makes (.forgetUser u) i
  | forgetThread {u t i} (h : ForgetCall u i) : Makes (.forgetThread u t) i
  | get {u id} : Makes (.forgetMemory u id) (.get (.memories u) id)
  | delete {u id} : Makes (.forgetMemory u id) (.delete (.memories u) id)

/-- One walk through the endpoints, given those of the chat and of the write path. -/
theorem only_endpoint (ag : Agent) (rounds : Nat) (r : Request)
    (hchat : ∀ u message t, r = .chat u message t → (ag.chat u t message).Only A P (fun _ => True))
    (hobserve : ∀ u text t source, r = .observe u text t source → source ∈ [Provenance.tool, .document] →
      (ag.observe u text t source).Only A P (fun _ => True))
    (hcalls : ∀ i, r.Makes i → P i) : (ag.route rounds r).Only A P (fun _ => True) := by
  cases r with
  | chat u message t =>
    have hout := fun ms => only_memoriesOut (A := A) (hcalls _ .chat) ms
    refine .seq (hchat u message t rfl) (fun trace _ => ?_)
    exact .seq (hout _) (fun _ _ => .seq (hout _) (fun _ _ => .pure trivial))
  | observe u text t source =>
    change (ag.observeRoute u text t source).Only _ _ _
    unfold Agent.observeRoute
    split
    · exact .pure trivial
    · next hsource =>
      refine .seq (hobserve u text t source rfl (not_not.1 hsource)) (fun report _ => ?_)
      exact .seq (only_memoriesOut (hcalls _ .observe) _) (fun _ _ => .pure trivial)
  | listMemories u all =>
    have hactive : ∀ ms : List Memory, (activeOnly ms).Only A P (fun _ => True) :=
      fun ms => (only_activeOnly (hcalls _ .active) ms).mono (fun _ h => h) (fun _ _ => trivial)
    have hout := fun ms => only_memoriesOut (A := A) (hcalls _ .active) ms
    refine only_storeSearch (hcalls _ .memories) (fun items _ => ?_)
    dsimp only
    split
    · refine .seq (.pure (Q := fun _ => True) trivial) (fun _ _ => ?_)
      exact .seq (hactive _) (fun _ _ => .seq (hout _) (fun _ _ => .pure trivial))
    · refine .seq (hactive _) (fun _ _ => .seq (hactive _) (fun _ _ => ?_))
      exact .seq (hout _) (fun _ _ => .pure trivial)
  | threadHistory u t =>
    refine .seq (R := fun _ => True) ?_ (fun _ _ => .pure trivial)
    refine .seq (only_checkpointThreadId (hcalls _ .entry)) ?_
    rintro _ rfl
    exact only_getState (hcalls _ .transcript) (fun _ _ => .pure trivial)
  | quarantine u =>
    refine .seq (R := fun _ => True) ?_ (fun _ _ => .pure trivial)
    exact only_storeSearch (hcalls _ .quarantine) (fun _ _ => .pure trivial)
  | forgetUser u => exact .map _ ((only_forgetUser rounds).mono (fun i hi => hcalls i (.forgetUser hi)) (fun _ h => h))
  | forgetThread u t =>
    exact .map _ ((only_forgetThread rounds t).mono (fun i hi => hcalls i (.forgetThread hi)) (fun _ h => h))
  | forgetMemory u id =>
    refine .seq (R := fun _ => True) (only_storeGet (hcalls _ .get) (fun item _ => ?_)) (fun _ _ => .pure trivial)
    split
    · exact .pure trivial
    · exact only_storeDelete (hcalls _ .delete) (.pure trivial)

theorem LocalPut.of_makes {r : Request} {i : Call} (h : r.Makes i) : LocalPut r.userId i := by
  cases h with
  | chat | observe | active => exact ⟨trivial, trivial⟩
  | transcript => exact ⟨⟨_, rfl⟩, trivial⟩
  | forgetUser h | forgetThread h => exact .of_forget h
  | _ => exact ⟨rfl, trivial⟩

/-- An endpoint makes calls on the data of the user it names. -/
theorem only_route (ag : Agent) (rounds : Nat) (r : Request) : (ag.route rounds r).Only
    (Answered r.userId (fun _ => True)) (LocalPut r.userId) (fun _ => True) := by
  refine only_endpoint ag rounds r ?_ ?_ (fun _ => .of_makes)
  · rintro u message t rfl
    exact (only_chat (own_chats u t _) ag message).mono (fun _ => .of_chat) (fun _ _ => trivial)
  · rintro u text t source rfl -
    exact (only_writer (own_writes u t _) ag.writer text source).mono (fun _ => .of_write) (fun _ _ => trivial)

end Routes

/-! ## Requests -/

/-- Serve a subject's request with its readings and ids. -/
def Agent.request (ag : Agent) (S : Services) (a : String × Request × Input) (w : World) : Response × World :=
  ag.serve S (some a.1) a.2.1 (w.given a.2.2)

section Requests
variable {S : Services} {w w' : World} (ag : Agent)

/-- A request for another user's data reads and changes nothing. -/
theorem serve_foreign (S : Services) {s : String} {r : Request} (h : r.userId ≠ s) :
    ∃ response, ∀ w, ag.serve S (some s) r w = (response, w) := by
  by_cases hr : r.wellFormed
  · refine ⟨.error 403 "Cannot access another user's data", fun w => ?_⟩
    have howns : owns (some s) r.userId = false := by simpa [owns] using Ne.symm h
    unfold Agent.serve
    rw [if_neg (by simp [hr]), if_pos (by simp [howns])]
  · refine ⟨.error 422 "string_too_short", fun w => ?_⟩
    unfold Agent.serve
    rw [if_pos hr]

/-- A request for the subject's own data runs its endpoint, if it is well formed. -/
theorem serve_own (S : Services) (r : Request) (w : World) : ag.serve S (some r.userId) r w =
    if r.wellFormed then (.of (exec S (ag.route (w.rounds r.userId) r) w).1,
      (exec S (ag.route (w.rounds r.userId) r) w).2)
    else (.error 422 "string_too_short", w) := by
  have howns : owns (some r.userId) r.userId = true := by simp [owns]
  unfold Agent.serve
  by_cases hr : r.wellFormed <;> simp [hr, howns]

/-- The subject's request, on worlds alike to it. -/
theorem Alike.request_own {s : String} (h : Alike S (View.of s) w w') (hf : SameFeed w w') (r : Request) :
    (ag.serve S (some s) r w).1 = (ag.serve S (some s) r w').1 ∧
      Alike S (View.of s) (ag.serve S (some s) r w).2 (ag.serve S (some s) r w').2 := by
  by_cases hs : r.userId = s
  · subst hs
    have hrounds : w.rounds r.userId = w'.rounds r.userId := by
      unfold Backend.rounds
      rw [h.store (.memories r.userId) rfl, h.store (.quarantine r.userId) rfl, h.store (.threads r.userId) rfl]
    have hrun :=
      h.exec hf ((only_route ag (w.rounds r.userId) r).mono (fun _ hi => ⟨hi.1.reads, hi.2⟩) (fun _ hq => hq))
    rw [serve_own, serve_own, ← hrounds]
    split
    · exact ⟨by rw [hrun.1], hrun.2⟩
    · exact ⟨rfl, h⟩
  · obtain ⟨response, hserve⟩ := serve_foreign ag S hs
    rw [hserve, hserve]
    exact ⟨rfl, h⟩

/-- Another subject's request. -/
theorem Alike.request_other (hsha : Function.Injective Host.sha256) {s s' : String} (hs : s' ≠ s)
    (h : Alike S (View.of s) w w') (r : Request) : Alike S (View.of s) (ag.serve S (some s') r w).2 w' := by
  by_cases hr : r.userId = s'
  · subst hr
    rw [serve_own]
    split
    · exact h.exec_left ((only_route ag _ r).mono (fun _ hi => ⟨hi.1.avoids hsha hs, hi.2⟩) (fun _ hq => hq))
    · exact h
  · obtain ⟨response, hserve⟩ := serve_foreign ag S hr
    rw [hserve]
    exact h

end Requests

/-- Erasing the requests of all other subjects changes nothing for `s`: neither
its responses nor its data, during the run and after it. And a request for
another user's data has one response whatever there is, and changes nothing. -/
theorem users_isolated (hsha : Function.Injective Host.sha256) (ag : Agent) (S : Services) (s : String)
    (requests : List (String × Request × Input)) :
    List.Forall₂ (fun r r' => r.1 = r'.1 ∧ r.2.1 = r'.2.1 ∧ (∀ ns, ns.user = s → r.2.2.store ns = r'.2.2.store ns) ∧
        ∀ t, r.2.2.checkpoints (checkpointKey s t) = r'.2.2.checkpoints (checkpointKey s t))
      ((Unwinding.results (ag.request S) Backend.empty requests).filter (fun r => r.1.1 = s))
      (Unwinding.results (ag.request S) Backend.empty (requests.filter (fun a => a.1 = s))) ∧
    (∀ ns, ns.user = s → (Unwinding.after (ag.request S) Backend.empty requests).store ns =
      (Unwinding.after (ag.request S) Backend.empty (requests.filter (fun a => a.1 = s))).store ns) ∧
    (∀ t, (Unwinding.after (ag.request S) Backend.empty requests).checkpoints (checkpointKey s t) =
      (Unwinding.after (ag.request S) Backend.empty
        (requests.filter (fun a => a.1 = s))).checkpoints (checkpointKey s t)) ∧
    ∀ r : Request, r.userId ≠ s → ∃ response, ∀ w, ag.serve S (some s) r w = (response, w) := by
  have herased : ∀ (a : String × Request × Input) (w w' : World), (decide (a.1 ≠ s)) = true →
      Alike S (View.of s) w w' → Alike S (View.of s) (ag.request S a w).2 w' := by
    rintro ⟨s', r, i⟩ w w' hs h
    have hgiven : Alike S (View.of s) (w.given i) w' :=
      ⟨h.store, h.checkpoints, h.matched.congr (fun _ => rfl), h.matched', h.sound, h.sound'⟩
    exact hgiven.request_other ag hsha (of_decide_eq_true hs) r
  have hkept : ∀ (a : String × Request × Input) (w w' : World), (decide (a.1 ≠ s)) = false →
      Alike S (View.of s) w w' → (ag.request S a w).1 = (ag.request S a w').1 ∧
        Alike S (View.of s) (ag.request S a w).2 (ag.request S a w').2 := by
    rintro ⟨s', r, i⟩ w w' hs h
    obtain rfl : s' = s := by simpa using hs
    exact (h.given i).request_own ag ⟨rfl, rfl⟩ r
  have hstart := Alike.refl S (View.of s) matched_empty (sound_empty S)
  have hruns := Unwinding.purge (O := Eq) herased hkept hstart requests
  have hend := Unwinding.purge_after herased (fun a w w' ha h => (hkept a w w' ha h).2) hstart requests
  simp only [ne_eq, decide_not, Bool.not_not] at hruns hend
  refine ⟨hruns.imp (fun r r' h => ⟨h.1, h.2.1, h.2.2.store, fun t => h.2.2.checkpoints _ ⟨t, rfl⟩⟩), hend.store,
    fun t => hend.checkpoints _ ⟨t, rfl⟩, fun r hr => serve_foreign ag S hr⟩

end Engram

/-! ## Two users on threads of one name -/

namespace Engram

open Backend

attribute [local instance] ascii

/-- Alice and Bob chat on "t1", Bob asks to forget Alice, and Alice reads her thread. -/
def sharedThread : List (String × Request × Input) :=
  [("alice", .chat "alice" "hi" "t1", .at 1 'a'), ("bob", .chat "bob" "yo" "t1", .at 2 'b'),
    ("bob", .forgetUser "alice", .at 3 'c'), ("alice", .threadHistory "alice" "t1", .at 4 'd')]

/-- Alice's responses are what they would be without Bob. -/
theorem users_isolated_shared :
    ((Unwinding.results (Agent.request ⟨⟨5⟩, .manager lenient, true⟩ teamBackend) Backend.empty sharedThread).filter
        (fun r => r.1.1 = "alice")).map (·.2.1) =
      (Unwinding.results (Agent.request ⟨⟨5⟩, .manager lenient, true⟩ teamBackend) Backend.empty
        [("alice", .chat "alice" "hi" "t1", .at 1 'a'),
          ("alice", .threadHistory "alice" "t1", .at 4 'd')]).map (·.2.1) := by
  have h := (users_isolated digest_injective ⟨⟨5⟩, .manager lenient, true⟩ teamBackend "alice" sharedThread).1
  exact List.forall₂_eq_eq_eq ▸ List.forall₂_map_left_iff.2 (List.forall₂_map_right_iff.2 (h.imp (fun _ _ h => h.2.1)))

end Engram
