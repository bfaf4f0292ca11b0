import Engram.Chats
import Engram.Executions
/-!
# The naive writer keeps a notebook

The baseline stores every turn verbatim. Over a whole run the memories of a user
are a list that each turn appends to and forgetting filters: nothing in it is
ever changed, retired or merged, wherever it came from.
-/

namespace Engram

open Backend Text

variable [Host]

/-! ## Notebooks -/

/-- One note: what was said, where, and by whom. -/
structure Note where
  id : String
  text : String
  threadId : Option String
  source : Provenance
  deriving DecidableEq

def Memory.note (m : Memory) : Note := ⟨m.id, m.text, m.threadId, m.source⟩

/-- Each user's notes, oldest first. -/
abbrev Notebook := String → List Note

namespace Notebook

def blank : Notebook := fun _ => []

/-- Note down a turn, unless it is blank. -/
def jot (n : Notebook) (u id text : String) (threadId : Option String) (source : Provenance) : Notebook :=
  if strip text = "" then n else Function.update n u (n u ++ [⟨id, strip text, threadId, source⟩])

def keep (n : Notebook) (u : String) (p : Note → Bool) : Notebook := Function.update n u ((n u).filter p)

/-- What an operation makes of the notebook. A new note gets the first id the operation is given. -/
def after (memory : Bool) (n : Notebook) (d : Done) : Notebook :=
  match d.op with
  | .chat u t message => if memory then n.jot u (d.input.ids 0) message (some t) .user else n
  | .observe u text t source => n.jot u (d.input.ids 0) text t source
  | .forgetMemory u id => n.keep u (fun x => x.id ≠ id)
  | .forgetThread u t => n.keep u (fun x => x.threadId ≠ some t)
  | .forgetUser u => n.keep u (fun _ => false)
  | .wait => n

end Notebook

/-! ## Worlds that hold them -/

/-- The memories are the notes of `n`, and all are for good. -/
structure Backend.Notes (w : World) (n : Notebook) : Prop where
  notes : ∀ u, (w.mem u).values.map Memory.note = n u
  lasting : ∀ u, ∀ m ∈ (w.mem u).values, m.supersededBy = none ∧ m.expiresAt = none

namespace Backend.Notes
variable {S : Services} {w w' : World} {n : Notebook} {u : String}

theorem empty : Backend.empty.Notes Notebook.blank where
  notes _ := rfl
  lasting _ _ h := by cases h

theorem same (h : w.Notes n) (hs : ∀ v, w'.mem v = w.mem v) : w'.Notes n where
  notes v := by rw [hs]; exact h.notes v
  lasting v := by rw [hs]; exact h.lasting v

/-- One user's records are filtered. -/
theorem keep (h : w.Notes n) {p : Note → Bool} (hu : (w'.mem u).values = (w.mem u).values.filter (fun m => p m.note))
    (hs : ∀ v, v ≠ u → w'.mem v = w.mem v) : w'.Notes (n.keep u p) where
  notes v := by
    by_cases hv : v = u
    · subst hv
      rw [hu, Notebook.keep, Function.update_self, ← h.notes v, List.filter_map]
      rfl
    · rw [hs v hv, Notebook.keep, Function.update_of_ne hv]
      exact h.notes v
  lasting v := by
    by_cases hv : v = u
    · subst hv
      rw [hu]
      exact fun m hm => h.lasting v m (List.mem_filter.1 hm).1
    · rw [hs v hv]
      exact h.lasting v

/-- A new record goes to the end. -/
theorem put (h : w.Notes n) {m : Memory} (hnew : m.id ∉ (w.mem u).keys)
    (hm : m.supersededBy = none ∧ m.expiresAt = none) :
    (w.put (.memories u) m.id m).Notes (Function.update n u (n u ++ [m.note])) where
  notes v := by
    by_cases hv : v = u
    · subst hv
      rw [mem_put_self, Dict.values_set_new _ hnew, List.map_append, h.notes, Function.update_self, List.map_singleton]
    · rw [mem_put_of_ne _ _ _ hv, Function.update_of_ne hv]
      exact h.notes v
  lasting v := by
    by_cases hv : v = u
    · subst hv
      rw [mem_put_self, Dict.values_set_new _ hnew]
      intro x hx
      rcases List.mem_append.1 hx with hx | hx
      · exact h.lasting v x hx
      · rwa [List.mem_singleton.1 hx]
    · rw [mem_put_of_ne _ _ _ hv]
      exact h.lasting v

/-- A turn is noted down, and the writer returns. -/
theorem write (h : w.Notes n) (hid : w.ids 0 ∉ (w.mem u).keys) (text : String) (threadId : Option String)
    (source : Provenance) : ∃ report w', exec S (naiveApply u text threadId source) w = (.ok report, w') ∧
      w'.Notes (n.jot u (w.ids 0) text threadId source) := by
  unfold naiveApply Notebook.jot
  split
  · exact ⟨_, _, rfl, h⟩
  · next hblank =>
    let m : Memory :=
      { id := w.ids 0, userId := u, text := strip text, text_ne := hblank, kind := .semantic,
        source, importance := .half,
        createdAt := w.clock 0, updatedAt := w.clock 1, expiresAt := none, supersededBy := none, supersededAt := none,
        attr := "", value := "", scope := "", threadId, evidence := some (strip text) }
    exact ⟨⟨[m], [⟨.write, strip text, some m.id, [], ""⟩]⟩, w.issue.tick.tick.put (.memories u) m.id m, rfl,
      put (w := w.issue.tick.tick) (m := m) (h.same (fun _ => rfl)) hid ⟨rfl, rfl⟩⟩

end Backend.Notes

/-! ## Runs -/

section Runs
variable {ag : Agent} {S : Services} {w w' : World} {n : Notebook} {u : String} {d : Done}

/-- The ids an operation is given lie under no memory. -/
theorem ids_unused (hk : w.Keyed) {i : Input} (hi : i.Valid w) (m : Nat) (u : String) : i.ids m ∉ (w.mem u).keys := by
  intro hin
  obtain ⟨x, hget⟩ := Dict.mem_keys_iff.1 hin
  exact hi.ids_new m (hk.issued hget)

omit [Host] in
theorem values_filter {d d' : Dict String Memory} {p : Memory → Bool} {q : String × Memory → Bool}
    (h : d'.entries = d.entries.filter q) (hq : ∀ e ∈ d.entries, q e = p e.2) : d'.values = d.values.filter p := by
  unfold Dict.values
  rw [h, List.filter_map, List.filter_congr hq]
  rfl

theorem chat_notes (hnaive : ag.writer = .naive) (hc : w.Canonical) (h : w.Notes n) (hids : w.ids 0 ∉ (w.mem u).keys)
    (t message : String) : ∃ trace w', exec S (ag.chat u t message) w = (.ok trace, w') ∧
      w'.Notes (if ag.memory then n.jot u (w.ids 0) message (some t) .user else n) := by
  cases hmem : ag.memory with
  | false =>
    rw [Agent.exec_chat_stateless S ag message hmem hc]
    exact ⟨_, _, rfl, h.same (w.mem_received u t message)⟩
  | true =>
    obtain ⟨recalled, -, w₂, -, hsame, hids₂, -, -, hrun⟩ :=
      Agent.exec_chat_memory S ag message hmem hc (u := u) (t := t)
    have hmem₂ : ∀ v, w₂.mem v = w.mem v := fun v => hsame.mem.trans (w.mem_received u t message v)
    rw [← hids₂, ← hmem₂] at hids
    obtain ⟨report, w', hwrite, hnotes⟩ := Backend.Notes.write (S := S) (h.same hmem₂) hids message (some t) .user
    rw [hrun, hnaive, show exec S (MemoryWriter.naive.apply u message (some t) .user) w₂ = (.ok report, w') from hwrite]
    rw [hids₂] at hnotes
    exact ⟨_, w', rfl, hnotes⟩

/-- Each operation does to the notebook what it says, and returns. -/
theorem Agent.Executes.notes (hnaive : ag.writer = .naive) (hd : ag.Executes w d w') (hacc : w.Accounted) (hk : w.Keyed)
    (h : w.Notes n) : (∃ r, d.result = .ok r) ∧ w'.Notes (n.after ag.memory d) := by
  obtain ⟨hi, S, hrun⟩ := hd
  obtain ⟨op, i, result⟩ := d
  dsimp only at hrun hi
  have hg : (w.given i).Notes n := h.same (fun _ => rfl)
  have hids := ids_unused hk hi 0
  cases op with
  | chat u t message =>
    have hmap : ag.perform S (.chat u t message) (w.given i) = _ := exec_map S (w.given i) _ _
    obtain ⟨trace, w'', hchat, hnotes⟩ := chat_notes hnaive (hacc.given i).canonical hg (hids u) t message (S := S)
    rw [hrun, hchat] at hmap
    obtain ⟨rfl, rfl⟩ := Prod.mk.inj hmap
    exact ⟨⟨_, rfl⟩, hnotes⟩
  | observe u text t source =>
    have hmap : ag.perform S (.observe u text t source) (w.given i) = _ := exec_map S (w.given i) _ _
    obtain ⟨report, w'', hwrite, hnotes⟩ := Backend.Notes.write (S := S) hg (hids u) text t source
    have happly : exec S (ag.observe u text t source) (w.given i) = (.ok report, w'') := by
      rw [Agent.observe, hnaive]
      exact hwrite
    rw [hrun, happly] at hmap
    obtain ⟨rfl, rfl⟩ := Prod.mk.inj hmap
    exact ⟨⟨_, rfl⟩, hnotes⟩
  | forgetMemory u id =>
    have hmap : ag.perform S (.forgetMemory u id) (w.given i) = _ := exec_map S (w.given i) _ _
    rw [hrun, exec_forgetMemory] at hmap
    split at hmap
    · next hnone =>
      obtain ⟨rfl, rfl⟩ := Prod.mk.inj hmap
      refine ⟨⟨_, rfl⟩, hg.keep (List.filter_eq_self.2 (fun m hm => ?_)).symm (fun _ _ => rfl)⟩
      obtain ⟨k, hget⟩ := Dict.mem_values_iff.1 hm
      refine decide_eq_true (fun hid => ?_)
      obtain rfl : k = id := (hk.id_eq hget).symm.trans hid
      rw [show ((w.given i).mem u).get k = some m from hget] at hnone
      cases hnone
    · obtain ⟨rfl, rfl⟩ := Prod.mk.inj hmap
      refine ⟨⟨_, rfl⟩, hg.keep (u := u) ?_ (fun v hv => (w.given i).store_dropKeys_of_ne _ (by simpa using hv))⟩
      refine values_filter (q := fun e => decide (e.1 ∉ [id])) ?_ (fun e he => ?_)
      · rw [show ((w.given i).dropKeys (.memories u) [id]).mem u = _ from store_dropKeys_self _ _ _,
          Dict.entries_eraseAll]
      · have hid : e.2.id = e.1 := (hk.given i).id_eq (Dict.get_eq_some_iff.2 he)
        simp [Memory.note, hid]
  | forgetThread u t =>
    obtain ⟨r, rfl⟩ := forgetThread_returns ag (hacc.given i).canonical hrun
    obtain ⟨-, hleft⟩ := perform_forgetThread ag hrun
    refine ⟨⟨r, rfl⟩, hg.keep (u := u) (p := fun x => x.threadId ≠ some t) ?_
      (fun v hv => hleft.others (.memories v) hv)⟩
    refine values_filter ?_ (fun _ _ => rfl)
    rw [hleft.mem, entries_eraseLearned]
    rfl
  | forgetUser u =>
    have hmap := exec_forgetUser_accounted ag S i u hacc
    rw [hrun] at hmap
    obtain ⟨rfl, rfl⟩ := Prod.mk.inj hmap
    refine ⟨⟨_, rfl⟩, hg.keep (u := u) ?_ (fun v hv => if_neg hv)⟩
    rw [show ((w.given i).forgotten u).mem u = .empty from if_pos rfl]
    simp [Dict.values]
  | wait =>
    have hmap : ag.perform S .wait (w.given i) = _ := exec_map S (w.given i) _ _
    rw [hrun] at hmap
    obtain ⟨rfl, rfl⟩ := Prod.mk.inj hmap
    exact ⟨⟨_, rfl⟩, h.same (fun _ => rfl)⟩

/-- Under the naive writer, over a backend whose calls succeed, every run of operations
returns throughout, and the memories of each user are, in order, the turns noted and
not forgotten since: verbatim, under the first id each was given, from any source,
and active for ever. -/
theorem run_notes (hnaive : ag.writer = .naive) {ds : List Done} (h : Steps ag.Executes Backend.empty ds w) :
    (∀ d ∈ ds, ∃ r, d.result = .ok r) ∧ ∀ u,
      (w.mem u).values.map Memory.note = ds.foldl (Notebook.after ag.memory) Notebook.blank u ∧
        ∀ m ∈ (w.mem u).values, ∀ now, m.isActive now := by
  have hstart : (Backend.empty.Accounted ∧ Backend.empty.Keyed) ∧ Backend.empty.Notes Notebook.blank :=
    ⟨⟨accounted_empty, keyed_empty⟩, .empty⟩
  have hkept : ∀ w d w', w.Accounted ∧ w.Keyed → ag.Executes w d w' → w'.Accounted ∧ w'.Keyed :=
    fun _ _ _ hw hd => ⟨hd.accounted hw.1, hd.keyed hw.2⟩
  refine ⟨?_, fun u => ?_⟩
  · refine h.label (I := fun w => (w.Accounted ∧ w.Keyed) ∧ ∃ n, w.Notes n)
      (fun w d w' hw hd => ?_) (fun w d w' hw hd => ?_) ⟨hstart.1, _, hstart.2⟩
    · obtain ⟨hinv, n, hn⟩ := hw
      exact ⟨hkept w d w' hinv hd, _, (hd.notes hnaive hinv.1 hinv.2 hn).2⟩
    · obtain ⟨hinv, n, hn⟩ := hw
      exact (hd.notes hnaive hinv.1 hinv.2 hn).1
  · obtain ⟨-, hn⟩ := h.tracked (R := fun w n => (w.Accounted ∧ w.Keyed) ∧ w.Notes n) (f := Notebook.after ag.memory)
      (fun w d w' n hw hd => ⟨hkept w d w' hw.1 hd, (hd.notes hnaive hw.1.1 hw.1.2 hw.2).2⟩) hstart
    refine ⟨hn.notes u, fun m hm now => ?_⟩
    obtain ⟨hlive, hlasting⟩ := hn.lasting u m hm
    exact Memory.isActive_iff.2 ⟨hlive, fun e he => by rw [hlasting] at he; cases he⟩

end Runs

end Engram

/-! ## A document that was read twice -/

namespace Engram

open Backend

attribute [local instance] ascii

def notingAgent : Agent := ⟨⟨5⟩, .naive, true⟩

def readOnce : World :=
  (notingAgent.perform teamBackend (.observe "alice" " tea " none .document) (Backend.empty.given (.at 1 'a'))).2

def readTwice : World :=
  (notingAgent.perform teamBackend (.observe "alice" "tea" none .document) (readOnce.given (.at 2 'b'))).2

/-- What the agent reads is noted like what the user says, every time. -/
theorem run_notes_twice : (readTwice.mem "alice").values.map Memory.note =
    [⟨"a", "tea", none, .document⟩, ⟨"b", "tea", none, .document⟩] := by
  have hvalid : (Input.at 1 'a').Valid Backend.empty := Stamped.empty.valid (by decide) (by decide)
  have hvalid' : (Input.at 2 'b').Valid readOnce :=
    (Stamped.empty.perform (by decide) 'a' notingAgent teamBackend _).valid (by decide) (by decide)
  have hrun : Steps notingAgent.Executes Backend.empty _ readTwice :=
    steps_perform (steps_perform .nil teamBackend (.observe "alice" " tea " none .document) hvalid) teamBackend
      (.observe "alice" "tea" none .document) hvalid'
  exact ((run_notes rfl hrun).2 "alice").1.trans (by decide +kernel)

end Engram
