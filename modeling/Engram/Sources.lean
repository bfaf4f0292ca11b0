import Engram.Concurrency
import Engram.Offline
/-!
# Where memories come from

The server's memory is made by the manager from what is said in chats. Here
every memory that is ever stored, by any number of requests served at once, is
traced to a message of its user that passed the gate, and to a candidate of it.
-/

namespace Engram

open Backend Text MemoryManager Re

variable [Host]

/-! ## The write path -/

/-- What is done to a stored record changes nothing of where it came from. -/
structure Traceable (M : Memory → Prop) : Prop where
  reinforced : ∀ m t, M m → M (reinforced m t)
  retired : ∀ m id t, M m → M (retired m id t)

/-- Memories are put if they are in `M` only, and blocked turns if they are in `N`. -/
def PutsIn (M : Memory → Prop) (N : String → Quarantined → Prop) : Call → Prop
  | .put (.memories _) _ m => M m
  | .put (.quarantine u) _ q => N u q
  | _ => True

/-- Answers of components in `P` over a store of memories in `M`. -/
def FoundIn (P : Services → Prop) (M : Memory → Prop) : (i : Call) → i.Ans → Prop
  | .search (.memories _) _ _ _, items => ∀ item ∈ items, M item.value
  | .extract turn, candidates => ∃ S, P S ∧ candidates = S.extract turn
  | _, _ => True

section Write
variable {P : Services → Prop} {M : Memory → Prop} {N : String → Quarantined → Prop} {u : String}
  {threadId : Option String} {source : Provenance}

theorem Traceable.keeps (hM : Traceable M) (u : String) : Keeps u M (FoundIn P M) (PutsIn M N) where
  clock := trivial
  newId := trivial
  embed _ := trivial
  extract _ := trivial
  search _ _ _ := trivial
  searchOf _ _ _ _ _ := trivial
  put _ := id
  found _ _ _ _ := id
  reinforced := hM.reinforced
  retired := hM.retired

/-- A turn the gate lets through stores what its candidates make, another one what is kept of it. -/
theorem sources_apply (hM : Traceable M) (mm : MemoryManager) {text : String}
    (hnew : (mm.gate.inspect (strip text) source).allowed → ∀ S, P S →
      ∀ c ∈ usable (S.extract (strip text)) (strip text), ∀ m, MadeOf u threadId source c m → M m)
    (hblocked : ¬ (mm.gate.inspect (strip text) source).allowed →
      ∀ now, N u (mm.gate.record (strip text) threadId source now)) :
    (mm.apply u text threadId source).Only (FoundIn P M) (PutsIn M N) (fun _ => True) := by
  refine (made_apply (hM.keeps u) mm (fun hallowed candidates hcandidates c hc m _ hm => ?_)
    (fun hg _ now => hblocked hg now)).mono (fun _ => id) (fun _ _ => trivial)
  obtain ⟨S, hS, rfl⟩ := hcandidates
  exact hnew hallowed S hS c hc m hm

end Write

/-! ## Requests -/

/-- The text a request takes to the write path, with its thread and its source. -/
def Request.turn : Request → Option (String × Option String × Provenance)
  | .chat _ message t => some (message, some t, .user)
  | .observe _ text t source => some (text, t, source)
  | _ => none

/-- Made of what `u` said on `t`, which the gate let through. -/
def SaidBy (S : Services) (mm : MemoryManager) (u message t : String) (m : Memory) : Prop :=
  (mm.gate.inspect (strip message) .user).allowed ∧
    ∃ c ∈ usable (S.extract (strip message)) (strip message), MadeOf u (some t) .user c m

/-- Kept of a turn of the request, which the gate blocked. -/
def BlockedIn (mm : MemoryManager) (r : Request) (q : Quarantined) : Prop :=
  ∃ text t source now, r.turn = some (text, t, source) ∧ ¬ (mm.gate.inspect (strip text) source).allowed ∧
    q = mm.gate.record (strip text) t source now

/-- All that is stored is in `M` and `N`. -/
structure Backend.AllIn (M : Memory → Prop) (N : String → Quarantined → Prop) (w : World) : Prop where
  memories : ∀ u key m, (w.mem u).get key = some m → M m
  quarantine : ∀ u key q, (w.store (.quarantine u)).get key = some q → N u q

section Requests
variable {P : Services → Prop} {M : Memory → Prop} {N : String → Quarantined → Prop} {mm : MemoryManager}
  {reader : MemoryReader} {memory : Bool}

theorem sources_chat (hM : Traceable M) {u message t : String} (hsaid : ∀ S, P S → ∀ m, SaidBy S mm u message t m → M m)
    (hblocked : ∀ q, BlockedIn mm (.chat u message t) q → N u q) :
    ((Agent.mk reader (.manager mm) memory).chat u t message).Only (FoundIn P M) (PutsIn M N) (fun _ => True) := by
  have hcalls : Converses u t (fun _ => True) (FoundIn P M) (PutsIn M N) := by
    constructor <;> simp [PutsIn]
  have hwrite : (mm.apply u message (some t) .user).Only (FoundIn P M) (PutsIn M N) (fun _ => True) :=
    sources_apply hM mm (fun hallowed S hS c hc m hm => hsaid S hS m ⟨hallowed, c, hc, hm⟩)
      (fun hg now => hblocked _ ⟨message, some t, .user, now, rfl, hg, rfl⟩)
  exact (only_chat_of hcalls (Agent.mk reader (.manager mm) memory)
    (hwrite.mono (fun _ h => h) (fun _ _ _ _ => trivial))).mono (fun _ h => h) (fun _ _ => trivial)

theorem sources_route (hM : Traceable M) (rounds : Nat) (r : Request)
    (hsaid : ∀ u message t, r = .chat u message t → ∀ S, P S → ∀ m, SaidBy S mm u message t m → M m)
    (hblocked : ∀ q, BlockedIn mm r q → N r.userId q) :
    ((Agent.mk reader (.manager mm) memory).route rounds r).Only (FoundIn P M) (PutsIn M N) (fun _ => True) := by
  have hcalls : ∀ i, r.Makes i → PutsIn M N i := by
    intro i hi
    cases hi with
    | forgetUser h | forgetThread h =>
      cases i with
      | put => cases h
      | _ => trivial
    | _ => trivial
  refine only_endpoint _ rounds r ?_ ?_ hcalls
  · rintro u message t rfl
    exact sources_chat hM (hsaid u message t rfl) hblocked
  · rintro u text t source rfl hsource
    -- What is not said by the user is blocked.
    have huntrusted : isTrusted source = false := by
      simp only [List.mem_cons, List.not_mem_nil, or_false] at hsource
      rcases hsource with rfl | rfl <;> rfl
    refine sources_apply hM mm (fun hallowed => ?_) (fun hg now => ?_)
    · rw [mm.gate.inspect_untrusted _ huntrusted] at hallowed
      cases hallowed
    · exact hblocked _ ⟨text, t, source, now, rfl, hg, rfl⟩

theorem Answers.sources {w w' : World} {i : Call} {o : i.Ans} (ha : Answers P i w o w') (hw : w.AllIn M N)
    (hi : PutsIn M N i) : FoundIn P M i o ∧ w'.AllIn M N := by
  obtain ⟨S, hS, j, -, hh⟩ := ha
  obtain ⟨rfl, rfl⟩ := Prod.mk.inj hh.symm
  have hsame : ∀ {w' : World}, w'.store = w.store → w'.AllIn M N := by
    intro w' hs
    refine ⟨fun u k m hget => hw.memories u k m ?_, fun u k q hget => hw.quarantine u k q ?_⟩
    · rw [← hget]
      exact congrArg (·.get k) (congrFun hs (.memories u)).symm
    · rw [← hget, hs]
  cases i with
  | search ns q limit offset =>
    refine ⟨?_, hsame rfl⟩
    cases ns with
    | memories v =>
      exact fun item hitem => hw.memories v item.key item.value
        (S.search_mem (List.mem_of_mem_drop (List.mem_of_mem_take hitem)))
    | _ => trivial
  | put ns key value =>
    refine ⟨trivial, fun u k m hget => ?_, fun u k q hget => ?_⟩
    · rcases get_put hget with ⟨rfl, rfl, hm⟩ | hget
      · obtain rfl := eq_of_heq hm
        exact hi
      · exact hw.memories u k m hget
    · rcases get_put hget with ⟨rfl, rfl, hq⟩ | hget
      · obtain rfl := eq_of_heq hq
        exact hi
      · exact hw.quarantine u k q hget
  | delete ns key =>
    exact ⟨trivial, fun u k m hget => hw.memories u k m (get_delete hget),
      fun u k q hget => hw.quarantine u k q (get_delete hget)⟩
  | embed text => exact ⟨trivial, hsame ((w.given j).store_embed S text)⟩
  | extract turn => exact ⟨⟨S, hS, rfl⟩, hsame rfl⟩
  | _ => exact ⟨trivial, hsame rfl⟩

/-- A request of the user `u`, who may make it. -/
def Arrival.By (a : Arrival) (u : String) : Prop := a.request.userId = u ∧ owns a.subject u

/-- What all requests store, and what is stored, is in `M` and `N`. -/
theorem concurrent_allIn (hM : Traceable M) {κ : Type} [DecidableEq κ] {arrivals : κ → Arrival}
    (hsaid : ∀ k u message t, (arrivals k).request = .chat u message t → owns (arrivals k).subject u →
      ∀ S, P S → ∀ m, SaidBy S mm u message t m → M m)
    (hblocked : ∀ k u, (arrivals k).By u → ∀ q, BlockedIn mm (arrivals k).request q → N u q)
    {made : List (Pool.Made κ Call CallOn.Ans)} {c : Serving κ}
    (h : Steps (Pool.Step (Answers P)) (Serving.start ⟨reader, .manager mm, memory⟩ arrivals) made c) :
    c.state.AllIn M N := by
  have hstart : ∀ k, ((Serving.start ⟨reader, .manager mm, memory⟩ arrivals).prog k).Only (FoundIn P M)
      (PutsIn M N) (fun _ => True) := by
    intro k
    change (Agent.serving _ _ _ _).Only _ _ _
    unfold Agent.serving
    split
    · exact .pure trivial
    split
    · exact .pure trivial
    · next howns =>
      have howns : owns (arrivals k).subject (arrivals k).request.userId := not_not.1 howns
      refine sources_route hM _ _ (fun v message t hr => hsaid k v message t hr ?_) (hblocked k _ ⟨rfl, howns⟩)
      rwa [hr] at howns
  exact (Pool.inv (W := fun _ _ p => p.Only (FoundIn P M) (PutsIn M N) (fun _ => True)) (I := Backend.AllIn M N)
    (fun k i f w o w' hW hI ha => by
      obtain ⟨hi, hf⟩ := hW.of_call
      obtain ⟨ho, hI'⟩ := ha.sources hI hi
      exact ⟨hf o ho, hI'⟩)
    (fun _ _ _ _ _ _ _ _ _ _ _ h => h) h hstart
      (.mk (fun _ _ _ hget => by cases hget) (fun _ _ _ hget => by cases hget))).2

end Requests

/-- Made of what a request said, as components in `P` take it. -/
def Sourced {κ : Type} (P : Services → Prop) (mm : MemoryManager) (arrivals : κ → Arrival) (m : Memory) : Prop :=
  ∃ k message t S, (arrivals k).request = .chat m.userId message t ∧ owns (arrivals k).subject m.userId ∧ P S ∧
    SaidBy S mm m.userId message t m

theorem sourced_traceable {κ : Type} (P : Services → Prop) (mm : MemoryManager) (arrivals : κ → Arrival) :
    Traceable (Sourced P mm arrivals) := by
  constructor
  · rintro m now ⟨k, message, t, S, hk, howns, hS, hallowed, c, hc, hmade⟩
    exact ⟨k, message, t, S, hk, howns, hS, hallowed, c, hc, { hmade with }⟩
  · rintro m id now ⟨k, message, t, S, hk, howns, hS, hallowed, c, hc, hmade⟩
    exact ⟨k, message, t, S, hk, howns, hS, hallowed, c, hc, { hmade with }⟩

theorem SaidBy.sourced {κ : Type} {P : Services → Prop} {S : Services} {mm : MemoryManager} {arrivals : κ → Arrival}
    {k : κ} {u message t : String} {m : Memory} (hk : (arrivals k).request = .chat u message t)
    (howns : owns (arrivals k).subject u) (hS : P S) (h : SaidBy S mm u message t m) : Sourced P mm arrivals m := by
  obtain ⟨hallowed, c, hc, hmade⟩ := h
  obtain rfl := hmade.user
  exact ⟨k, message, t, S, hk, howns, hS, hallowed, c, hc, hmade⟩

/-- It has the text of a fact of the offline extractor. -/
theorem SaidBy.proposed {S : Services} (hextract : S.extract = RuleFactExtractor.extract) {mm : MemoryManager}
    {u message t : String} {m : Memory} (h : SaidBy S mm u message t m) :
    ∃ c ∈ RuleFactExtractor.extract (strip message), m.text = c.text := by
  obtain ⟨-, c, hc, hmade⟩ := h
  obtain ⟨proposed, hproposed, rfl⟩ := List.mem_map.1 (List.mem_filter.1 hc).1
  rw [hextract] at hproposed
  exact ⟨proposed, hproposed, hmade.text.trans (verifyTtl_text proposed _)⟩

theorem SaidBy.cut (hw : WordChars) {S : Services} (hextract : S.extract = RuleFactExtractor.extract)
    {mm : MemoryManager} {u message t : String} {m : Memory} (h : SaidBy S mm u message t m) :
    Cut isWord message.toList m.text.toList := by
  obtain ⟨c, hc, htext⟩ := h.proposed hextract
  have hcut := RuleFactExtractor.cut_text hw hc
  rw [strip_strip] at hcut
  rw [htext]
  exact (cut_strip hw message).trans hcut

/-- What is said without a temporal marker stays, whatever the extractor makes of it. -/
theorem SaidBy.lasting {S : Services} {mm : MemoryManager} {u message t : String} {m : Memory}
    (h : SaidBy S mm u message t m) (hmarker : ¬ hasTemporalMarker (strip message)) : m.expiresAt = none := by
  obtain ⟨-, c, hc, hmade⟩ := h
  obtain ⟨proposed, -, rfl⟩ := List.mem_map.1 (List.mem_filter.1 hc).1
  refine hmade.expires.2 ?_
  unfold verifyTtl
  split
  · next hlasting => exact hlasting.resolve_right hmarker
  · rfl

theorem memories_sourced {P : Services → Prop} {reader : MemoryReader} {mm : MemoryManager} {memory : Bool} {κ : Type}
    [DecidableEq κ] {arrivals : κ → Arrival} {made : List (Pool.Made κ Call CallOn.Ans)} {c : Serving κ}
    (h : Steps (Pool.Step (Answers P)) (Serving.start ⟨reader, .manager mm, memory⟩ arrivals) made c) {u key : String}
    {m : Memory} (hm : (c.state.mem u).get key = some m) : Sourced P mm arrivals m ∧ m.userId = u := by
  have hall := concurrent_allIn (sourced_traceable P mm arrivals) (N := fun _ _ => True)
    (fun k u message t hk howns S hS m hm => hm.sourced hk howns hS) (fun _ _ _ _ _ => trivial) h
  exact ⟨hall.memories _ key m hm, ((matched_serving _ arrivals h).1 u key m hm).2⟩

/-- Whatever is served at once, in whatever order, and wherever it is stopped: every
memory of `u` is made of a candidate of a message `u` sent to a chat, which the
gate let through. Nothing observed, blocked, or said by another user is in it. -/
theorem concurrent_sourced (P : Services → Prop) (reader : MemoryReader) (mm : MemoryManager) (memory : Bool) {κ : Type}
    [DecidableEq κ] (arrivals : κ → Arrival) {made : List (Pool.Made κ Call CallOn.Ans)} {c : Serving κ}
    (h : Steps (Pool.Step (Answers P)) (Serving.start ⟨reader, .manager mm, memory⟩ arrivals) made c) {u key : String}
    {m : Memory} (hm : (c.state.mem u).get key = some m) :
    ∃ k message t S, (arrivals k).request = .chat u message t ∧ owns (arrivals k).subject u ∧ P S ∧
      SaidBy S mm u message t m := by
  obtain ⟨hsourced, rfl⟩ := memories_sourced h hm
  exact hsourced

/-- ... and every record in the quarantine of `u` is of a turn of a request of `u` that
the gate blocked, with its text, its thread and what the gate says of it. -/
theorem concurrent_audited (P : Services → Prop) (reader : MemoryReader) (mm : MemoryManager) (memory : Bool) {κ : Type}
    [DecidableEq κ] (arrivals : κ → Arrival) {made : List (Pool.Made κ Call CallOn.Ans)} {c : Serving κ}
    (h : Steps (Pool.Step (Answers P)) (Serving.start ⟨reader, .manager mm, memory⟩ arrivals) made c) {u key : String}
    {q : Quarantined} (hq : (c.state.store (.quarantine u)).get key = some q) :
    ∃ k, (arrivals k).By u ∧ BlockedIn mm (arrivals k).request q := by
  have hM : Traceable (fun _ : Memory => True) := ⟨fun _ _ _ => trivial, fun _ _ _ _ => trivial⟩
  have hall := concurrent_allIn hM (N := fun u q => ∃ k, (arrivals k).By u ∧ BlockedIn mm (arrivals k).request q)
    (fun _ _ _ _ _ _ _ _ _ _ => trivial) (fun k v hby q hblocked => ⟨k, hby, hblocked⟩) h
  exact hall.quarantine u key q hq

/-- With the offline extractor every memory is a piece of such a message, cut where no
word goes on, and expires only if the message says so. -/
theorem concurrent_verbatim (hw : WordChars) {P : Services → Prop}
    (hextract : ∀ S, P S → S.extract = RuleFactExtractor.extract) (reader : MemoryReader) (mm : MemoryManager)
    (memory : Bool) {κ : Type} [DecidableEq κ] (arrivals : κ → Arrival) {made : List (Pool.Made κ Call CallOn.Ans)}
    {c : Serving κ} (h : Steps (Pool.Step (Answers P)) (Serving.start ⟨reader, .manager mm, memory⟩ arrivals) made c)
    {u key : String} {m : Memory} (hm : (c.state.mem u).get key = some m) :
    ∃ k message t, (arrivals k).request = .chat u message t ∧ Cut isWord message.toList m.text.toList ∧
      (m.expiresAt ≠ none → hasTemporalMarker (strip message)) := by
  obtain ⟨⟨k, message, t, S, hk, -, hS, hsaid⟩, rfl⟩ := memories_sourced h hm
  refine ⟨k, message, t, hk, hsaid.cut hw (hextract S hS), fun hexpires => ?_⟩
  by_contra hmarker
  exact hexpires (hsaid.lasting hmarker)

end Engram

/-! ## What Alice said, and what was read to her -/

namespace Engram

open Backend Text Re

attribute [local instance] ascii

def offlineBackend : Services := { teamBackend with extract := RuleFactExtractor.extract }

def teaChat : Arrival := ⟨some "alice", .chat "alice" "Hello. I prefer tea!" "t1", 0⟩

def teaPage : Arrival := ⟨some "alice", .observe "alice" " I prefer milk. " none .document, 0⟩

def teaAndPage (k : Bool) : Arrival := cond k teaChat teaPage

/-- Components with the offline extractor. -/
def Offline (S : Services) : Prop := S.extract = RuleFactExtractor.extract

/-- The chat begins, the document is read meanwhile, and the chat goes on. -/
def teaServed : Serving Bool :=
  (Serving.start chattingAgent teaAndPage).play offlineBackend
    [(true, 6), (false, 2), (true, 3), (false, 100), (true, 100)]

theorem teaServed_steps :
    ∃ made, Steps (Pool.Step (Answers Offline)) (Serving.start chattingAgent teaAndPage) made teaServed :=
  Serving.play_steps (by simp only [Offline, offlineBackend]) (fun id hid => by cases hid)

theorem request_teaAndPage {k : Bool} {u message t : String} (h : (teaAndPage k).request = .chat u message t) :
    message = "Hello. I prefer tea!" ∧ t = "t1" := by
  cases k with
  | false => cases h
  | true => exact ⟨(Request.chat.inj h).2.1.symm, (Request.chat.inj h).2.2.symm⟩

theorem tea_stored : ∃ m, (teaServed.state.mem "alice").get "a" = some m := by
  refine Option.isSome_iff_exists.1 ?_
  decide +kernel

/-- The one memory is the second sentence of the chat. -/
theorem concurrent_sourced_tea : ∃ made c m S,
    Steps (Pool.Step (Answers Offline)) (Serving.start chattingAgent teaAndPage) made c ∧
      (c.state.mem "alice").get "a" = some m ∧ Offline S ∧ SaidBy S lenient "alice" "Hello. I prefer tea!" "t1" m := by
  obtain ⟨made, hmade⟩ := teaServed_steps
  obtain ⟨m, hm⟩ := tea_stored
  obtain ⟨k, message, t, S, hk, -, hS, hsaid⟩ := concurrent_sourced Offline ⟨5⟩ lenient true teaAndPage hmade hm
  obtain ⟨rfl, rfl⟩ := request_teaAndPage hk
  exact ⟨made, _, m, S, hmade, hm, hS, hsaid⟩

theorem concurrent_verbatim_tea : ∃ made c m,
    Steps (Pool.Step (Answers Offline)) (Serving.start chattingAgent teaAndPage) made c ∧
      (c.state.mem "alice").get "a" = some m ∧ Cut isWord "Hello. I prefer tea!".toList m.text.toList := by
  obtain ⟨made, hmade⟩ := teaServed_steps
  obtain ⟨m, hm⟩ := tea_stored
  obtain ⟨k, message, t, hk, hcut, -⟩ :=
    concurrent_verbatim ascii_wordChars (fun S hS => hS) ⟨5⟩ lenient true teaAndPage hmade hm
  obtain ⟨rfl, -⟩ := request_teaAndPage hk
  exact ⟨made, _, m, hmade, hm, hcut⟩

/-- The document is kept in the quarantine. -/
theorem concurrent_audited_page : ∃ made c key q,
    Steps (Pool.Step (Answers Offline)) (Serving.start chattingAgent teaAndPage) made c ∧
      (c.state.store (.quarantine "alice")).get key = some q ∧ BlockedIn lenient teaPage.request q := by
  obtain ⟨made, hmade⟩ := teaServed_steps
  have hsome : ((teaServed.state.store (.quarantine "alice")).get
      (InjectionGate.quarantineKey 0 "I prefer milk.")).isSome := by
    decide +kernel
  obtain ⟨q, hq⟩ := Option.isSome_iff_exists.1 hsome
  obtain ⟨k, -, hblocked⟩ := concurrent_audited Offline ⟨5⟩ lenient true teaAndPage hmade hq
  cases k with
  | false => exact ⟨made, _, _, q, hmade, hq, hblocked⟩
  | true =>
    -- The gate lets the chat through.
    obtain ⟨text, t, source, now, hturn, hgate, -⟩ := hblocked
    obtain ⟨rfl, -, rfl⟩ : "Hello. I prefer tea!" = text ∧ some "t1" = t ∧ Provenance.user = source := by
      simpa [teaAndPage, teaChat, Request.turn] using hturn
    exact absurd rfl hgate

end Engram
