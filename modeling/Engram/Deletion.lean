import Engram.Paging
import Engram.Keys
/-!
# What forgetting does

`forget_memory`, `forget_thread` and `forget_user` run alone: the state they
leave, field by field.
-/

namespace Engram

open Text

variable [Host]

/-! ## Deleting -/

namespace Backend

/-- Deleting records of a namespace. -/
def dropKeys (w : World) (ns : Namespace) (keys : List String) : World :=
  { w with store := Function.update w.store ns (keys.foldl Dict.erase (w.store ns)) }

/-- Deleting transcripts. -/
def dropStates (w : World) (threads : List String) : World :=
  { w with checkpoints := fun c => if c ∈ threads then none else w.checkpoints c }

variable (w : World)

@[simp] theorem store_dropKeys_self (ns : Namespace) (keys : List String) :
    (w.dropKeys ns keys).store ns = keys.foldl Dict.erase (w.store ns) := Function.update_self _ _ _
theorem store_dropKeys_of_ne {ns ns' : Namespace} (keys : List String) (h : ns' ≠ ns) :
    (w.dropKeys ns keys).store ns' = w.store ns' := Function.update_of_ne h _ _
@[simp] theorem checkpoints_dropKeys (ns : Namespace) (keys : List String) :
    (w.dropKeys ns keys).checkpoints = w.checkpoints := rfl
@[simp] theorem store_dropStates (threads : List String) : (w.dropStates threads).store = w.store := rfl
@[simp] theorem checkpoints_dropStates (threads : List String) :
    (w.dropStates threads).checkpoints = fun c => if c ∈ threads then none else w.checkpoints c := rfl

end Backend

/-! ## The loops -/

section Loops
variable (S : Services) (w : World)

theorem exec_allKeys (ns : Namespace) {rounds : Nat} (h : (w.store ns).size < rounds) :
    exec S (allKeys rounds ns) w = (.ok (S.walk ns (w.store ns)), w) := by
  obtain ⟨w', hrun, rfl⟩ := run_allKeys (pages_handle S w ns) rfl ((S.walk_perm ns _).length_eq.trans_lt h)
  exact hrun

theorem exec_deleteAll (ns : Namespace) (keys : List String) :
    exec S (deleteAll ns keys) w = (.ok (), w.dropKeys ns keys) := by
  induction keys generalizing w with
  | nil => simp [deleteAll, Backend.dropKeys]
  | cons k keys ih =>
    rw [deleteAll, exec_storeDelete, ih]
    simp only [Backend.dropKeys, Backend.delete, Function.update_self, Function.update_idem, List.foldl_cons]

/-- The threads of a user in the order `sorted` puts them. -/
def sortedThreads (u : String) : List String :=
  ((S.walk (.threads u) (w.store (.threads u))).map Prod.fst).insertionSort (· ≤ ·)

theorem exec_knownThreads {rounds : Nat} (u : String) (h : (w.store (.threads u)).size < rounds) :
    exec S (knownThreads rounds u) w = (.ok (sortedThreads S w u), w) := by
  rw [knownThreads, exec_bind_of_ok S w (exec_allKeys S w _ h), exec_pure]
  rfl

theorem sortedThreads_perm (u : String) : (sortedThreads S w u).Perm (w.store (.threads u)).keys :=
  (List.perm_insertionSort _ _).trans ((S.walk_perm _ _).map _)

theorem exec_checkpointIds_ok {u : String} {threads : List String} (h : ∀ t ∈ threads, ¬ w.Legacy u t) :
    exec S (checkpointIds u threads) w = (.ok (threads.map (checkpointKey u)), w) := by
  induction threads with
  | nil => rfl
  | cons t threads ih =>
    rw [checkpointIds, exec_bind_of_ok S w (exec_checkpointThreadId_ok S w (h t List.mem_cons_self)),
      exec_bind_of_ok S w (ih (fun t ht => h t (List.mem_cons_of_mem _ ht))), exec_pure]
    rfl

theorem exec_checkpointIds_error {u : String} {threads : List String} (h : ∃ t ∈ threads, w.Legacy u t) :
    exec S (checkpointIds u threads) w = (.error .legacyThread, w) := by
  induction threads with
  | nil => simp at h
  | cons t threads ih =>
    rw [checkpointIds]
    by_cases ht : w.Legacy u t
    · rw [exec_bind_of_error S w (exec_checkpointThreadId_error S w ht)]
    · obtain ⟨t', ht', hl⟩ := h
      have hrest : ∃ t' ∈ threads, w.Legacy u t' := by
        rcases List.mem_cons.1 ht' with rfl | ht'
        · exact absurd hl ht
        · exact ⟨t', ht', hl⟩
      rw [exec_bind_of_ok S w (exec_checkpointThreadId_ok S w ht), exec_bind_of_error S w (ih hrest)]

theorem exec_deleteThreads (u : String) (pairs : List (String × String)) :
    exec S (deleteThreads u pairs) w =
      (.ok (), (w.dropKeys (.threads u) (pairs.map Prod.fst)).dropStates (pairs.map Prod.snd)) := by
  induction pairs generalizing w with
  | nil => simp [deleteThreads, Backend.dropKeys, Backend.dropStates]
  | cons p pairs ih =>
    rw [deleteThreads, exec_deleteThread, exec_storeDelete, ih]
    congr 1
    simp only [Backend.dropKeys, Backend.dropStates, Backend.delete, Backend.setState, Function.update_self,
      Function.update_idem, List.map_cons, List.foldl_cons]
    congr 1
    funext c
    by_cases hc : c = p.2
    · simp [hc]
    · simp only [List.mem_cons, hc, false_or, Function.update_of_ne hc]

end Loops

/-! ## The operations -/

section Operations
variable (S : Services) (w : World) (u : String)

theorem exec_forgetMemory (id : String) :
    exec S (forgetMemory u id) w =
      if (w.mem u).get id = none then (.ok false, w) else (.ok true, w.dropKeys (.memories u) [id]) := by
  unfold forgetMemory
  rw [exec_storeGet]
  split
  · rfl
  · rw [exec_storeDelete, exec_pure]
    rfl

/-- The ids of what was learned in a conversation. -/
def learnedIn (t : String) : List String :=
  ((S.walk (.memories u) (w.mem u)).filter (fun e => e.2.threadId = some t)).map Prod.fst

theorem exec_forgetThread_error {rounds : Nat} {t : String} (h : w.Legacy u t) :
    exec S (forgetThread rounds u t) w = (.error .legacyThread, w) :=
  exec_bind_of_error S w (exec_checkpointThreadId_error S w h)

theorem exec_forgetThread_ok {rounds : Nat} {t : String} (h : ¬ w.Legacy u t) (hr : (w.mem u).size < rounds) :
    exec S (forgetThread rounds u t) w = (.ok ⟨u, (learnedIn S w u t).length, 0, [t]⟩,
      ((w.dropKeys (.memories u) (learnedIn S w u t)).dropKeys (.threads u) [t]).dropStates [checkpointKey u t]) := by
  rw [forgetThread, exec_bind_of_ok S w (exec_checkpointThreadId_ok S w h),
    exec_bind_of_ok S w (exec_allKeys S w _ hr), exec_bind_of_ok S w (exec_deleteAll S w _ _), exec_deleteThread,
    exec_storeDelete, exec_pure]
  congr 1
  simp only [Backend.dropStates, Backend.setState, Backend.dropKeys, Backend.delete, List.foldl_cons, List.foldl_nil]
  congr 1
  funext c
  by_cases hc : c = checkpointKey u t <;> simp [hc]

theorem exec_forgetUser_error {rounds : Nat} (hr : (w.store (.threads u)).size < rounds)
    (h : ∃ t ∈ (w.store (.threads u)).keys, w.Legacy u t) :
    exec S (forgetUser rounds u) w = (.error .legacyThread, w) := by
  obtain ⟨t, ht, hl⟩ := h
  rw [forgetUser, exec_bind_of_ok S w (exec_knownThreads S w u hr), exec_bind_of_error S w
    (exec_checkpointIds_error S w ⟨t, (sortedThreads_perm S w u).mem_iff.2 ht, hl⟩)]

/-- A user's records and indexed transcripts gone. -/
def Backend.forgotten (w : World) (u : String) : World :=
  { w with
    store := fun ns => if ns.user = u then .empty else w.store ns
    checkpoints := fun c => if c ∈ (w.store (.threads u)).keys.map (checkpointKey u) then none else w.checkpoints c }

theorem Backend.store_dropKeys_all (w : World) {ns : Namespace} {keys : List String}
    (h : ∀ k ∈ (w.store ns).keys, k ∈ keys) : (w.dropKeys ns keys).store ns = .empty := by
  rw [store_dropKeys_self]
  apply Dict.ext_entries
  rw [Dict.entries_eraseAll, Dict.entries_empty, List.filter_eq_nil_iff]
  intro e he
  simpa using h e.1 (List.mem_map.2 ⟨e, he, rfl⟩)

/-- All keys of the three namespaces of a user dropped, nothing is left of the user's. -/
theorem Backend.store_dropAll {ms qs ts : List String} (hm : ∀ k ∈ (w.store (.memories u)).keys, k ∈ ms)
    (hq : ∀ k ∈ (w.store (.quarantine u)).keys, k ∈ qs) (ht : ∀ k ∈ (w.store (.threads u)).keys, k ∈ ts)
    (ns : Namespace) :
    (((w.dropKeys (.memories u) ms).dropKeys (.quarantine u) qs).dropKeys (.threads u) ts).store ns =
      if ns.user = u then .empty else w.store ns := by
  set w₁ := w.dropKeys (.memories u) ms
  set w₂ := w₁.dropKeys (.quarantine u) qs
  have hq₁ : w₁.store (.quarantine u) = w.store (.quarantine u) := w.store_dropKeys_of_ne _ (by simp)
  have ht₂ : w₂.store (.threads u) = w.store (.threads u) :=
    (w₁.store_dropKeys_of_ne _ (by simp)).trans (w.store_dropKeys_of_ne _ (by simp))
  by_cases hns : ns.user = u
  · rw [if_pos hns]
    subst hns
    cases ns with
    | memories v =>
      rw [w₂.store_dropKeys_of_ne _ (by simp), w₁.store_dropKeys_of_ne _ (by simp)]
      exact w.store_dropKeys_all hm
    | quarantine v =>
      rw [w₂.store_dropKeys_of_ne _ (by simp)]
      exact w₁.store_dropKeys_all (by rw [hq₁]; exact hq)
    | threads v => exact w₂.store_dropKeys_all (by rw [ht₂]; exact ht)
  · have hne : ∀ {ns' : Namespace}, ns'.user = u → ns ≠ ns' := by
      rintro ns' hu rfl
      exact hns hu
    rw [if_neg hns, w₂.store_dropKeys_of_ne _ (hne rfl), w₁.store_dropKeys_of_ne _ (hne rfl)]
    exact w.store_dropKeys_of_ne _ (hne rfl)

theorem exec_forgetUser_ok {rounds : Nat} (hr : w.rounds u ≤ rounds)
    (h : ∀ t ∈ (w.store (.threads u)).keys, ¬ w.Legacy u t) :
    exec S (forgetUser rounds u) w =
      (.ok ⟨u, (w.mem u).size, (w.store (.quarantine u)).size, sortedThreads S w u⟩, w.forgotten u) := by
  unfold Backend.rounds at hr
  have hperm := sortedThreads_perm S w u
  have hwalk : ∀ ns, ∀ k ∈ (w.store ns).keys, k ∈ (S.walk ns (w.store ns)).map Prod.fst :=
    fun ns k hk => ((S.walk_perm ns _).map Prod.fst).mem_iff.2 hk
  set w₁ := w.dropKeys (.memories u) ((S.walk (.memories u) (w.mem u)).map Prod.fst) with hw₁
  have hq : w₁.store (.quarantine u) = w.store (.quarantine u) := w.store_dropKeys_of_ne _ (by simp)
  set w₂ := w₁.dropKeys (.quarantine u) ((S.walk (.quarantine u) (w₁.store (.quarantine u))).map Prod.fst) with hw₂
  rw [forgetUser, exec_bind_of_ok S w (exec_knownThreads S w u (by omega)),
    exec_bind_of_ok S w (exec_checkpointIds_ok S w (fun t ht => h t (hperm.mem_iff.1 ht))),
    exec_bind_of_ok S w (exec_allKeys S w _ (by omega)), exec_bind_of_ok S w (exec_deleteAll S w _ _),
    exec_bind_of_ok S w₁ (exec_allKeys S w₁ (.quarantine u) (by rw [hq]; omega)),
    exec_bind_of_ok S w₁ (exec_deleteAll S w₁ _ _), exec_bind_of_ok S w₂ (exec_deleteThreads S w₂ u _), exec_pure]
  have hlen : (sortedThreads S w u).length = ((sortedThreads S w u).map (checkpointKey u)).length := by simp
  rw [List.map_fst_zip hlen.le, List.map_snd_zip hlen.ge]
  refine Prod.ext ?_ (Backend.ext (funext fun ns => ?_) (funext fun c => ?_) rfl rfl rfl rfl rfl)
  · rw [hq, (S.walk_perm _ _).length_eq, (S.walk_perm _ _).length_eq]
    rfl
  · exact w.store_dropAll u (hwalk _) (by rw [hq]; exact hwalk _) (fun k hk => hperm.mem_iff.2 hk) ns
  · have hiff : c ∈ (sortedThreads S w u).map (checkpointKey u) ↔
        c ∈ (w.store (.threads u)).keys.map (checkpointKey u) := (hperm.map _).mem_iff
    simp only [Backend.checkpoints_dropStates, Backend.forgotten, hiff]
    rfl

end Operations

end Engram
