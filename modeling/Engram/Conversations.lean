import Engram.Calls
import Engram.Deletion
/-!
# Forgetting one conversation

`forget_thread` finds memories by the thread they carry. Blocked content
carries its thread, too, and is not looked for.
-/

namespace Engram

open MemoryManager Backend Text

variable [Host]

/-! ## The index -/

namespace Backend

/-- Every index entry carries the thread it lies under. -/
def Named (w : World) : Prop := ∀ u s e, (w.store (.threads u)).get s = some e → e.threadId = s

end Backend

/-- An entry is put under the thread it carries. -/
def PutsNamed : Call → Prop
  | .put (.threads _) s e => e.threadId = s
  | _ => True

theorem named_handle (S : Services) {i : Call} {w : World} (hw : w.Named) (hi : PutsNamed i) :
    (handle S i w).2.Named := by
  intro u s e hget
  cases i with
  | put ns k v =>
    rcases get_put hget with ⟨rfl, rfl, he⟩ | hget
    · obtain rfl := eq_of_heq he
      exact hi
    · exact hw u s e hget
  | delete ns k => exact hw u s e (get_delete hget)
  | embed text =>
    have hget : ((w.embed S text).2.store (.threads u)).get s = some e := hget
    rw [store_embed] at hget
    exact hw u s e hget
  | _ => exact hw u s e hget

theorem putsNamed_of_shape {u t : String} {i : Call} (h : ChatShape u t i) : PutsNamed i := by
  cases i with
  | put ns =>
    cases ns with
    | threads v =>
      obtain ⟨-, rfl, ht, -⟩ := h
      exact ht
    | _ => trivial
  | _ => trivial

theorem putsNamed_act (ag : Agent) (rounds : Nat) (op : Op) :
    (ag.act rounds op).Only (fun _ _ => True) PutsNamed (fun _ => True) := by
  have hforget : ∀ u i, ForgetCall u i → PutsNamed i := by
    intro u i hi
    cases i with
    | put => cases hi
    | _ => trivial
  cases op with
  | chat u t message =>
    exact .map _ ((only_chat (shape_chats u t) ag message).mono (fun _ => putsNamed_of_shape) (fun _ _ => trivial))
  | observe u text t source =>
    have hwrites : Writes u t (fun _ => True) (fun _ _ => True) PutsNamed :=
      ⟨⟨trivial, trivial, fun _ => trivial, fun _ => trivial, fun _ _ _ => trivial, fun _ _ _ _ _ => trivial,
        fun _ _ => trivial, fun _ _ _ _ _ _ _ => trivial, fun _ _ _ => trivial, fun _ _ _ _ => trivial⟩,
        fun _ _ => trivial, fun _ _ _ _ => trivial⟩
    exact .map _ ((only_writer hwrites ag.writer text source).mono (fun _ h => h) (fun _ _ => trivial))
  | forgetMemory u id => exact .map _ ((only_forgetMemory id).mono (hforget u) (fun _ _ => trivial))
  | forgetThread u t => exact .map _ ((only_forgetThread rounds t).mono (hforget u) (fun _ _ => trivial))
  | forgetUser u => exact .map _ ((only_forgetUser rounds).mono (hforget u) (fun _ _ => trivial))
  | wait => exact .map _ (.call trivial (fun _ _ => .ret trivial))

theorem Run.named {ag : Agent} {P : Services → Op → World → Prop} {w : World} (h : Run ag P Backend.empty w) :
    w.Named := by
  refine h.inv Backend.Named (fun _ _ _ hget => by cases hget) (fun S op i w hw _ _ => ?_)
  exact (Prog.Only.run_inv (I := Backend.Named) (putsNamed_act ag _ op)
    (fun i w hi hw => ⟨trivial, named_handle S hw hi⟩) (show (w.given i).Named from hw)).1

/-! ## What is left -/

section Forget
variable {S : Services} {w : World} {u t k : String} {m : Memory}

theorem mem_learnedIn : k ∈ learnedIn S w u t ↔ ∃ m, (w.mem u).get k = some m ∧ m.threadId = some t := by
  constructor
  · intro h
    obtain ⟨e, he, rfl⟩ := List.mem_map.1 h
    obtain ⟨hmem, ht⟩ := List.mem_filter.1 he
    exact ⟨e.2, Dict.get_eq_some_iff.2 ((S.walk_perm _ _).mem_iff.1 hmem), of_decide_eq_true ht⟩
  · rintro ⟨m, hget, ht⟩
    refine List.mem_map.2 ⟨(k, m), List.mem_filter.2 ⟨?_, decide_eq_true ht⟩, rfl⟩
    exact (S.walk_perm _ _).mem_iff.2 (Dict.get_eq_some_iff.1 hget)

/-- Memories of the thread are gone, and no others. -/
theorem get_eraseLearned :
    ((learnedIn S w u t).foldl Dict.erase (w.mem u)).get k = some m ↔
    (w.mem u).get k = some m ∧ m.threadId ≠ some t := by
  rw [Dict.get_eraseAll]
  split
  · next hk =>
    obtain ⟨n, hn, ht⟩ := mem_learnedIn.1 hk
    constructor
    · intro h
      cases h
    · rintro ⟨hm, hne⟩
      rw [hn] at hm
      cases hm
      exact absurd ht hne
  · next hk => exact ⟨fun hm => ⟨hm, fun ht => hk (mem_learnedIn.2 ⟨m, hm, ht⟩)⟩, fun h => h.1⟩

theorem size_eraseLearned :
    (w.mem u).size = ((learnedIn S w u t).foldl Dict.erase (w.mem u)).size + (learnedIn S w u t).length := by
  have hkept : ((learnedIn S w u t).foldl Dict.erase (w.mem u)).entries =
      (w.mem u).entries.filter (fun e => !decide (e.2.threadId = some t)) := by
    rw [Dict.entries_eraseAll]
    refine List.filter_congr (fun e he => ?_)
    have hget : (w.mem u).get e.1 = some e.2 := Dict.get_eq_some_iff.2 he
    have hiff : e.1 ∈ learnedIn S w u t ↔ e.2.threadId = some t := by
      rw [mem_learnedIn]
      exact ⟨fun ⟨m, hm, ht⟩ => by rw [hget] at hm; cases hm; exact ht, fun ht => ⟨_, hget, ht⟩⟩
    simp [hiff]
  have hlearned : (learnedIn S w u t).length =
      ((w.mem u).entries.filter (fun e => decide (e.2.threadId = some t))).length := by
    unfold learnedIn
    rw [List.length_map]
    exact ((S.walk_perm (.memories u) (w.mem u)).filter _).length_eq
  have hsplit := List.length_eq_length_filter_add (l := (w.mem u).entries) (fun e => decide (e.2.threadId = some t))
  unfold Dict.size
  rw [hkept, hlearned]
  omega

/-- What `forget_thread` leaves of `w`. -/
structure LeftOf (S : Services) (u t : String) (w w' : World) : Prop where
  mem : w'.mem u = (learnedIn S w u t).foldl Dict.erase (w.mem u)
  quarantine : w'.store (.quarantine u) = w.store (.quarantine u)
  threads : w'.store (.threads u) = (w.store (.threads u)).erase t
  others : ∀ ns, ns.user ≠ u → w'.store ns = w.store ns
  transcript : w'.checkpoints (checkpointKey u t) = none
  transcripts : ∀ c, c ≠ checkpointKey u t → w'.checkpoints c = w.checkpoints c
  now : w'.now = w.now

/-- Where `forget_thread` returns, it reports what it found and leaves the rest. -/
theorem perform_forgetThread (ag : Agent) {r : Outcome} {w' : World}
    (h : ag.perform S (.forgetThread u t) w = (.ok r, w')) :
    r = .forgot ⟨u, (learnedIn S w u t).length, 0, [t]⟩ ∧ LeftOf S u t w w' := by
  have hmap : ag.perform S (.forgetThread u t) w = _ := exec_map S w _ _
  have hrounds : (Op.forgetThread u t).rounds w = w.rounds u := rfl
  rw [hmap, hrounds] at h
  by_cases hl : w.Legacy u t
  · rw [exec_forgetThread_error S w u hl] at h
    cases h
  · have hsize : (w.store (.memories u)).size < w.rounds u := by
      unfold Backend.rounds
      omega
    rw [exec_forgetThread_ok S w u hl hsize] at h
    cases h
    set w₁ := w.dropKeys (.memories u) (learnedIn S w u t)
    have hne : ∀ {ns : Namespace}, ns.user ≠ u → ∀ ns' : Namespace, ns'.user = u → ns ≠ ns' :=
      fun hns ns' hu he => hns (he ▸ hu)
    have hmt : (Namespace.memories u) ≠ .threads u := by simp
    have hqt : (Namespace.quarantine u) ≠ .threads u := by simp
    have hqm : (Namespace.quarantine u) ≠ .memories u := by simp
    refine ⟨rfl, ⟨?_, ?_, ?_, fun ns hns => ?_, by simp, fun c hc => by simp [hc, w₁], rfl⟩⟩
    · exact (w₁.store_dropKeys_of_ne [t] hmt).trans (w.store_dropKeys_self _ _)
    · exact (w₁.store_dropKeys_of_ne [t] hqt).trans (w.store_dropKeys_of_ne _ hqm)
    · exact (w₁.store_dropKeys_self (.threads u) [t]).trans
        (congrArg (Dict.erase · t) (w.store_dropKeys_of_ne _ hmt.symm))
    · exact (w₁.store_dropKeys_of_ne [t] (hne hns _ rfl)).trans (w.store_dropKeys_of_ne _ (hne hns _ rfl))

end Forget

/-! ## Everything that came from it -/

/-- From `w` to `w'`, all of `u`'s thread `t` and nothing else was erased. -/
structure Erased (u t : String) (w w' : World) (report : ForgetReport) : Prop where
  memories : ∀ k m, (w'.mem u).get k = some m → m.threadId ≠ some t
  quarantine : ∀ k q, (w'.store (.quarantine u)).get k = some q → q.threadId ≠ some t
  index : ∀ s e, (w'.store (.threads u)).get s = some e → e.threadId ≠ t
  transcript : w'.checkpoints (checkpointKey u t) = none
  memories_kept : ∀ k m, m.threadId ≠ some t → ((w'.mem u).get k = some m ↔ (w.mem u).get k = some m)
  quarantine_kept : ∀ k q, q.threadId ≠ some t →
    ((w'.store (.quarantine u)).get k = some q ↔ (w.store (.quarantine u)).get k = some q)
  index_kept : ∀ s e, e.threadId ≠ t → ((w'.store (.threads u)).get s = some e ↔ (w.store (.threads u)).get s = some e)
  transcripts_kept : ∀ v s, (v, s) ≠ (u, t) → w'.checkpoints (checkpointKey v s) = w.checkpoints (checkpointKey v s)
  others_kept : ∀ ns, ns.user ≠ u → w'.store ns = w.store ns
  counted : (w.mem u).size = (w'.mem u).size + report.memoriesDeleted

/-- `forget_thread` erases all of a conversation exactly if nothing that came
from it was blocked. -/
theorem forgetThread_erases_iff (hsha : Function.Injective Host.sha256) {ag : Agent} {P : Services → Op → World → Prop}
    {w w' : World} (h : Run ag P Backend.empty w) {S : Services} {i : Input} {u t : String} {report : ForgetReport}
    (hp : ag.perform S (.forgetThread u t) (w.given i) = (.ok (.forgot report), w')) :
    Erased u t w w' report ↔ ∀ k q, (w.store (.quarantine u)).get k = some q → q.threadId ≠ some t := by
  obtain ⟨hreport, hleft⟩ := perform_forgetThread ag hp
  cases hreport
  have hmem : ∀ k m, (w'.mem u).get k = some m ↔ (w.mem u).get k = some m ∧ m.threadId ≠ some t := by
    intro k m
    rw [hleft.mem]
    exact get_eraseLearned
  have hquarantine : w'.store (.quarantine u) = w.store (.quarantine u) := hleft.quarantine
  -- An entry carries the thread it lies under: see `Named`.
  have hindex : ∀ s e, (w'.store (.threads u)).get s = some e ↔ (w.store (.threads u)).get s = some e ∧
      e.threadId ≠ t := by
    intro s e
    rw [hleft.threads, Dict.get_erase]
    split
    · next hs =>
      refine ⟨fun hget => (by cases hget), ?_⟩
      rintro ⟨hget, he⟩
      exact absurd ((h.named u s e hget).trans hs) he
    · next hs => exact ⟨fun hget => ⟨hget, fun he => hs ((h.named u s e hget).symm.trans he)⟩, fun hget => hget.1⟩
  refine ⟨fun herased k q hget => herased.quarantine k q (hquarantine ▸ hget), fun hclean => ?_⟩
  exact {
    memories := fun k m hget => ((hmem k m).1 hget).2
    quarantine := fun k q hget => hclean k q (hquarantine ▸ hget)
    index := fun s e hget => ((hindex s e).1 hget).2
    transcript := hleft.transcript
    memories_kept := fun k m hm => ⟨fun hget => ((hmem k m).1 hget).1, fun hget => (hmem k m).2 ⟨hget, hm⟩⟩
    quarantine_kept := fun k q _ => by rw [hquarantine]
    index_kept := fun s e he => ⟨fun hget => ((hindex s e).1 hget).1, fun hget => (hindex s e).2 ⟨hget, he⟩⟩
    transcripts_kept := fun v s hne => hleft.transcripts _ (fun hk => hne (Prod.ext_iff.2 (checkpointKey_inj hsha hk)))
    others_kept := hleft.others
    counted := by
      rw [hleft.mem]
      exact size_eraseLearned }

/-! ## What another conversation said, too -/

namespace Backend

/-- Every memory carries the thread of the chat that wrote it. -/
def Threaded (w : World) : Prop := ∀ u k m, (w.mem u).get k = some m → m.threadId.isSome

/-- A live record of `u` has the value `v` in the slot `σ`, as far as spelling goes. -/
def Tells (w : World) (u : String) (σ : String × String) (v : String) : Prop :=
  ∃ k m, (w.mem u).get k = some m ∧ m.slot = σ ∧ norm m.value = norm v ∧ m.isActive w.now

/-- ... and carries the thread `t`. -/
def TellsFrom (w : World) (u : String) (σ : String × String) (v t : String) : Prop :=
  ∃ k m, (w.mem u).get k = some m ∧ m.slot = σ ∧ norm m.value = norm v ∧ m.isActive w.now ∧ m.threadId = some t

end Backend

/-- A store of records with threads answers with such records. -/
def AnsweredThreaded : (i : Call) → i.Ans → Prop
  | .search (.memories _) _ _ _, items => ∀ item ∈ items, item.value.threadId.isSome
  | _, _ => True

def PutsThreaded : Call → Prop
  | .put (.memories _) _ m => m.threadId.isSome
  | _ => True

theorem threaded_chats (u t : String) : Chats u t (fun m => m.threadId.isSome) AnsweredThreaded PutsThreaded where
  clock := trivial
  newId := trivial
  embed _ := trivial
  extract _ := trivial
  search _ _ _ := trivial
  searchOf _ _ _ _ _ := trivial
  put _ hm := hm
  quarantine _ _ := trivial
  found _ _ _ _ hitems := hitems
  reinforced _ _ hm := hm
  retired _ _ _ hm := hm
  new m _ _ ht := by rw [ht]; rfl
  entry := trivial
  index _ _ _ := trivial
  state := trivial
  save _ := trivial
  invoke _ := trivial

theorem threaded_handle (S : Services) {i : Call} {w : World} (hw : w.Threaded) (hi : PutsThreaded i) :
    AnsweredThreaded i (handle S i w).1 ∧ (handle S i w).2.Threaded := by
  refine ⟨?_, fun u k m hget => ?_⟩
  · cases i with
    | search ns q limit offset =>
      cases ns with
      | memories v =>
        intro item hitem
        exact hw v _ _ (S.search_mem (List.mem_of_mem_drop (List.mem_of_mem_take hitem)))
      | _ => trivial
    | _ => trivial
  · cases i with
    | put ns k' v =>
      rcases get_put hget with ⟨rfl, rfl, hm⟩ | hget
      · obtain rfl := eq_of_heq hm
        exact hi
      · exact hw u k m hget
    | delete ns k' => exact hw u k m (get_delete hget)
    | embed text =>
      have hget : ((w.embed S text).2.store (.memories u)).get k = some m := hget
      rw [store_embed] at hget
      exact hw u k m hget
    | _ => exact hw u k m hget

theorem Run.threaded {ag : Agent} {w : World} (h : Run ag (fun _ op _ => op.isChat) Backend.empty w) : w.Threaded := by
  refine h.inv Threaded (fun _ _ _ hget => by cases hget) (fun S op i w hw _ hchat => ?_)
  cases op with
  | chat u t message =>
    exact (Prog.Only.run_inv (I := Threaded) (Q := fun _ => True)
      (.map _ ((only_chat (threaded_chats u t) ag message).mono (fun _ h => h) (fun _ _ => trivial)))
      (fun i w hi hw => threaded_handle S hw hi) (show (w.given i).Threaded from hw)).1
  | _ => cases hchat

/-- After any chats, `forget_thread` leaves a live value live exactly if a live
record of it remembers another thread than the forgotten one. -/
theorem forgetThread_tells_iff {ag : Agent} {w w' : World} (h : Run ag (fun _ op _ => op.isChat) Backend.empty w)
    {S : Services} {i : Input} {u a : String} {r : Outcome}
    (hp : ag.perform S (.forgetThread u a) (w.given i) = (.ok r, w')) (σ : String × String) (v : String) :
    w'.Tells u σ v ↔ ∃ b, b ≠ a ∧ w.TellsFrom u σ v b := by
  obtain ⟨-, hleft⟩ := perform_forgetThread ag hp
  have hmem : ∀ k m, (w'.mem u).get k = some m ↔ (w.mem u).get k = some m ∧ m.threadId ≠ some a := by
    intro k m
    rw [hleft.mem]
    exact get_eraseLearned
  have hnow : w'.now = w.now := hleft.now
  constructor
  · rintro ⟨k, m, hget, hslot, hvalue, hactive⟩
    obtain ⟨hget, hne⟩ := (hmem k m).1 hget
    obtain ⟨b, hb⟩ := Option.isSome_iff_exists.1 (h.threaded u k m hget)
    exact ⟨b, fun he => hne (he ▸ hb), k, m, hget, hslot, hvalue, hnow ▸ hactive, hb⟩
  · rintro ⟨b, hb, k, m, hget, hslot, hvalue, hactive, ht⟩
    refine ⟨k, m, (hmem k m).2 ⟨hget, fun he => ?_⟩, hslot, hvalue, hnow.symm ▸ hactive⟩
    exact hb (Option.some.inj (ht.symm.trans he))

end Engram

/-! ## Two conversations -/

namespace Engram

open Backend

attribute [local instance] ascii

def teamAgent : Agent := ⟨⟨5⟩, .manager lenient, true⟩

/-- Alice names her team on thread "t1". -/
def namedOnFirst : World :=
  (teamAgent.perform teamBackend (.chat "alice" "t1" "payments") (Backend.empty.given (.at 1 'a'))).2

/-- ... and then on thread "t2", too. -/
def namedOnBoth : World :=
  (teamAgent.perform teamBackend (.chat "alice" "t2" "payments") (namedOnFirst.given (.at 2 'b'))).2

/-- ... and something read on thread "t1" is blocked. -/
def blockedOnFirst : World :=
  (teamAgent.perform teamBackend (.observe "alice" "hello" (some "t1") .tool) (namedOnFirst.given (.at 2 'b'))).2

theorem run_namedOnFirst {P : Services → Op → World → Prop}
    (hP : P teamBackend (.chat "alice" "t1" "payments") (Backend.empty.given (.at 1 'a'))) :
    Run teamAgent P Backend.empty namedOnFirst :=
  .step .nil teamBackend _ _ (Input.at_valid (by decide) (by decide)) hP

theorem stamped_namedOnFirst : namedOnFirst.Stamped 1 ['a'] := Stamped.empty.perform (by decide) 'a' _ _ _

theorem run_namedOnBoth : Run teamAgent (fun _ op _ => op.isChat) Backend.empty namedOnBoth :=
  .step (run_namedOnFirst rfl) teamBackend _ _ (stamped_namedOnFirst.valid (by decide) (by decide)) rfl

/-- The blocked text outlives the conversation it came from. -/
theorem forgetThread_blocked_stays : ∃ w w' report, Run teamAgent (fun _ _ _ => True) Backend.empty w ∧
    teamAgent.perform teamBackend (.forgetThread "alice" "t1") (w.given (.at 3 'c')) = (.ok (.forgot report), w') ∧
      ¬ Erased "alice" "t1" w w' report := by
  have hrun : Run teamAgent (fun _ _ _ => True) Backend.empty blockedOnFirst :=
    .step (run_namedOnFirst trivial) teamBackend _ _ (stamped_namedOnFirst.valid (by decide) (by decide)) trivial
  refine ⟨blockedOnFirst, _, ⟨"alice", 1, 0, ["t1"]⟩, hrun, perform_eq (by decide +kernel), fun herased => ?_⟩
  · obtain ⟨e, he, ht⟩ : ∃ e ∈ ((teamAgent.perform teamBackend (.forgetThread "alice" "t1")
        (blockedOnFirst.given (.at 3 'c'))).2.store (.quarantine "alice")).entries, e.2.threadId = some "t1" := by
      decide +kernel
    exact herased.quarantine e.1 e.2 (Dict.get_eq_some_iff.2 he) ht

/-- With nothing blocked, all of it is gone. -/
theorem forgetThread_erases_iff_first :
    ∃ w', teamAgent.perform teamBackend (.forgetThread "alice" "t1") (namedOnFirst.given (.at 2 'b')) =
    (.ok (.forgot ⟨"alice", 1, 0, ["t1"]⟩), w') ∧ Erased "alice" "t1" namedOnFirst w' ⟨"alice", 1, 0, ["t1"]⟩ := by
  have hperform : teamAgent.perform teamBackend (.forgetThread "alice" "t1") (namedOnFirst.given (.at 2 'b')) =
      (.ok (.forgot ⟨"alice", 1, 0, ["t1"]⟩),
        (teamAgent.perform teamBackend (.forgetThread "alice" "t1") (namedOnFirst.given (.at 2 'b'))).2) :=
    perform_eq (by decide +kernel)
  refine ⟨_, hperform, (forgetThread_erases_iff digest_injective
    (run_namedOnFirst (P := fun _ _ _ => True) trivial) hperform).2 ?_⟩
  intro k q hget
  have hempty : (namedOnFirst.store (.quarantine "alice")).entries = [] := by
    rw [← List.length_eq_zero_iff]
    decide +kernel
  have hmem := Dict.get_eq_some_iff.1 hget
  rw [hempty] at hmem
  cases hmem

/-- What Alice also said on thread "t2" is gone with thread "t1". -/
theorem forgetThread_shared_lost : namedOnBoth.Tells "alice" ("team", "") "payments" ∧
    ∃ w', teamAgent.perform teamBackend (.forgetThread "alice" "t1") (namedOnBoth.given (.at 3 'c')) =
      (.ok (.forgot ⟨"alice", 1, 0, ["t1"]⟩), w') ∧ ¬ w'.Tells "alice" ("team", "") "payments" := by
  refine ⟨?_, _, perform_eq (by decide +kernel), ?_⟩
  · exact Dict.exists_get_iff.2 (by decide +kernel)
  · rintro ⟨k, m, hget, -⟩
    have hempty : ((teamAgent.perform teamBackend (.forgetThread "alice" "t1") (namedOnBoth.given (.at 3 'c'))).2.mem
        "alice").entries = [] := by
      rw [← List.length_eq_zero_iff]
      decide +kernel
    have hmem := Dict.get_eq_some_iff.1 hget
    rw [hempty] at hmem
    cases hmem

/-- Forgetting thread "t2" instead loses nothing. -/
theorem forgetThread_tells_iff_second : ∃ w', teamAgent.perform teamBackend (.forgetThread "alice" "t2")
    (namedOnBoth.given (.at 3 'c')) = (.ok (.forgot ⟨"alice", 0, 0, ["t2"]⟩), w') ∧
      w'.Tells "alice" ("team", "") "payments" := by
  have hperform : teamAgent.perform teamBackend (.forgetThread "alice" "t2") (namedOnBoth.given (.at 3 'c')) =
      (.ok (.forgot ⟨"alice", 0, 0, ["t2"]⟩),
        (teamAgent.perform teamBackend (.forgetThread "alice" "t2") (namedOnBoth.given (.at 3 'c'))).2) :=
    perform_eq (by decide +kernel)
  refine ⟨_, hperform, (forgetThread_tells_iff run_namedOnBoth hperform _ _).2 ⟨"t1", by decide, ?_⟩⟩
  exact Dict.exists_get_iff.2 (by decide +kernel)

end Engram
