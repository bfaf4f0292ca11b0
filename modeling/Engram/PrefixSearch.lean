import Engram.Calls
import Engram.Deletion
/-!
# Prefix search

`BaseStore.search` takes a prefix of a namespace, and a store may compare joined
labels. Then it finds the records of every user whose id starts with the one asked for.
-/

namespace Engram

open Text

variable [Host]

/-! ## What is found -/

/-- The labels as one string. -/
def Namespace.joined (ns : Namespace) : String := ns.labels.1 ++ "." ++ ns.labels.2

/-- The namespace of the same kind for another user. -/
def Namespace.withUser : Namespace → String → Namespace
  | memories _, v => memories v
  | quarantine _, v => quarantine v
  | threads _, v => threads v

omit [Host] in
/-- Another kind of namespace never matches. -/
theorem startswith_joined {ns ns' : Namespace} :
    startswith ns'.joined ns.joined ↔ ns' = ns.withUser ns'.user ∧ startswith ns'.user ns.user := by
  rw [startswith_iff, startswith_iff]
  cases ns <;> cases ns' <;>
    simp [Namespace.joined, Namespace.labels, Namespace.withUser, Namespace.user, String.toList_append,
      List.cons_prefix_cons]

/-- The records of `v` in the namespace of this kind. -/
def Namespace.entriesOf : (ns : Namespace) → String → Store → List (String × ns.Val)
  | memories _, v, store => (store (memories v)).entries
  | quarantine _, v, store => (store (quarantine v)).entries
  | threads _, v, store => (store (threads v)).entries

/-- The records a search of `ns` finds, of the given users. -/
def hits (users : List String) (ns : Namespace) (store : Store) : List (String × ns.Val) :=
  users.flatMap (fun v => if startswith (ns.withUser v).joined ns.joined then ns.entriesOf v store else [])

/-- A store with prefix search over the records of `users`, with the order of its
walks, its rankings, and the components behind the other calls. -/
structure PrefixStore (users : List String) where
  walk : (ns : Namespace) → Store → List (String × ns.Val)
  walk_perm : ∀ ns store, (walk ns store).Perm (hits users ns store)
  rank : (ns : Namespace) → String → Store → List (SearchItem ns.Val)
  rank_mem : ∀ ns q store, ∀ item ∈ rank ns q store, (item.key, item.value) ∈ hits users ns store
  services : Services

namespace PrefixStore
variable {users : List String} (X : PrefixStore users)

def search (ns : Namespace) (store : Store) : Option String → List (SearchItem ns.Val)
  | none => (X.walk ns store).map (fun e => ⟨e.1, e.2, none⟩)
  | some q => X.rank ns q store

theorem search_mem {ns : Namespace} {store : Store} {q : Option String} {item : SearchItem ns.Val}
    (h : item ∈ X.search ns store q) : (item.key, item.value) ∈ hits users ns store := by
  cases q with
  | none =>
    obtain ⟨e, he, rfl⟩ := List.mem_map.1 h
    exact (X.walk_perm ns store).mem_iff.1 he
  | some q => exact X.rank_mem ns q store item h

/-- As `Engram.handle`, but for searches. -/
def handle : (i : Call) → World → i.Ans × World
  | .search ns query limit offset, w => (((X.search ns w.store query).drop offset).take limit, w)
  | i, w => Engram.handle X.services i w

/-- Run a program to its end. -/
def exec {α : Type} (p : Act α) (w : World) : Except Error α × World := p.run X.handle w

/-- Rounds for all records that are found, and one more. -/
def rounds (w : World) (u : String) : Nat :=
  (X.walk (.memories u) w.store).length + (X.walk (.quarantine u) w.store).length +
    (X.walk (.threads u) w.store).length + 1

end PrefixStore

/-! ## What is asked for -/

section Lists
variable {α β : Type} {f : α → List β} {l : List α} {a b : α}

omit [Host]

/-- Only one of the parts has anything in it. -/
theorem flatMap_eq_single (hnd : l.Nodup) (hothers : ∀ x ∈ l, x ≠ a → f x = []) (ha : a ∉ l → f a = []) :
    l.flatMap f = f a := by
  induction l with
  | nil => exact (ha List.not_mem_nil).symm
  | cons x l ih =>
    obtain ⟨hx, hnd⟩ := List.nodup_cons.1 hnd
    have hrest : ∀ y ∈ l, y ≠ a → f y = [] := fun y hy => hothers y (List.mem_cons_of_mem _ hy)
    rw [List.flatMap_cons]
    by_cases hxa : x = a
    · subst hxa
      have hnil : l.flatMap f = [] :=
        List.flatMap_eq_nil_iff.2 (fun y hy => hrest y hy (fun he => hx (he ▸ hy)))
      rw [hnil, List.append_nil]
    · rw [hothers x List.mem_cons_self hxa, List.nil_append]
      refine ih hnd hrest (fun hn => ha (fun hmem => ?_))
      rcases List.mem_cons.1 hmem with rfl | hmem
      · exact hxa rfl
      · exact hn hmem

/-- Two of the parts are at most as long as all. -/
theorem length_add_le_flatMap [DecidableEq α] (hb : b ∈ l) (hne : a ≠ b) (ha : a ∉ l → f a = []) :
    (f a).length + (f b).length ≤ (l.flatMap f).length := by
  have hperm : (l.flatMap f).length = (f b).length + ((l.erase b).flatMap f).length := by
    rw [((List.perm_cons_erase hb).flatMap_right f).length_eq, List.flatMap_cons, List.length_append]
  have hrest : (f a).length ≤ ((l.erase b).flatMap f).length := by
    by_cases hmem : a ∈ l
    · have hmem' : f a ∈ (l.erase b).map f := List.mem_map.2 ⟨a, (List.mem_erase_of_ne hne).2 hmem, rfl⟩
      rw [List.flatMap_def]
      exact (List.sublist_flatten_of_mem hmem').length_le
    · rw [ha hmem]
      exact Nat.zero_le _
  omega

end Lists

/-- Nobody else whose id starts with that of `ns` has records in a namespace like it. -/
def Backend.Alone (w : World) (ns : Namespace) : Prop :=
  ∀ v, v ≠ ns.user → startswith v ns.user → w.store (ns.withUser v) = .empty

section Hits
variable {users : List String} {w : World} {ns : Namespace} {store : Store}

omit [Host] in
theorem entriesOf_eq_nil {v : String} : ns.entriesOf v store = [] ↔ store (ns.withUser v) = .empty := by
  cases ns <;> exact ⟨fun h => Dict.ext_entries h, fun h => congrArg Dict.entries h⟩

omit [Host] in
theorem entriesOf_user : ns.entriesOf ns.user store = (store ns).entries := by
  cases ns <;> rfl

omit [Host] in
theorem startswith_withUser (v : String) : startswith (ns.withUser v).joined ns.joined = startswith v ns.user := by
  rw [Bool.eq_iff_iff, startswith_joined]
  cases ns <;> exact and_iff_right rfl

omit [Host] in
theorem startswith_self (s : String) : startswith s s := startswith_iff.2 List.prefix_rfl

omit [Host] in
theorem mem_hits {e : String × ns.Val} :
    e ∈ hits users ns store ↔ ∃ v ∈ users, startswith v ns.user ∧ e ∈ ns.entriesOf v store := by
  simp only [hits, List.mem_flatMap, startswith_withUser]
  refine exists_congr (fun v => and_congr_right (fun _ => ?_))
  split
  · next h => exact (and_iff_right h).symm
  · next h => exact ⟨fun he => (by cases he), fun he => absurd he.1 h⟩

/-- Where nobody interferes, a search finds just the records of the namespace. -/
theorem hits_alone (hnd : users.Nodup) (hall : w.store ns ≠ .empty → ns.user ∈ users) (h : w.Alone ns) :
    hits users ns w.store = (w.store ns).entries := by
  unfold hits
  rw [flatMap_eq_single (a := ns.user) hnd (fun v _ hv => ?_) (fun hu => ?_), startswith_withUser,
    if_pos (startswith_self _), entriesOf_user]
  · rw [startswith_withUser]
    split
    · next hs => exact entriesOf_eq_nil.2 (h v hv hs)
    · rfl
  · rw [startswith_withUser, if_pos (startswith_self _), entriesOf_user]
    have hempty : w.store ns = .empty := by
      by_contra hne
      exact hu (hall hne)
    rw [hempty]
    rfl

/-- ... and only there are they as many. -/
theorem alone_of_length (hall : ∀ ns, w.store ns ≠ .empty → ns.user ∈ users)
    (h : (hits users ns w.store).length = (w.store ns).size) : w.Alone ns := by
  intro v hv hs
  by_contra hne
  have hmem : v ∈ users := by
    have hmem := hall _ hne
    cases ns <;> exact hmem
  have hle := length_add_le_flatMap (a := ns.user) (f := fun v =>
    if startswith (ns.withUser v).joined ns.joined then ns.entriesOf v w.store else []) hmem (Ne.symm hv) (fun hu => by
      have hempty : w.store ns = .empty := by
        by_contra hne
        exact hu (hall ns hne)
      rw [startswith_withUser, if_pos (startswith_self _), entriesOf_user, hempty]
      rfl)
  have hpos : 0 < (ns.entriesOf v w.store).length := List.length_pos_iff.2 (fun he => hne (entriesOf_eq_nil.1 he))
  rw [startswith_withUser, startswith_withUser, if_pos (startswith_self _), if_pos hs, entriesOf_user] at hle
  unfold hits at h
  unfold Dict.size at h
  omega

end Hits

/-! ## Runs -/

/-- Calls that both kinds of store answer alike. -/
def Direct : Call → Prop
  | .search .. => False
  | _ => True

namespace PrefixStore
variable {users : List String} (X : PrefixStore users) {w : World} {u : String}

theorem exec_direct {α : Type} {Q : α → Prop} {p : Act α} (hp : p.Only (fun _ _ => True) Direct Q) (w : World) :
    X.exec p w = Engram.exec X.services p w := by
  refine hp.run_eq (fun i w hi => ?_) w
  cases i with
  | search => cases hi
  | _ => rfl

theorem exec_bind {α β : Type} {p : Act α} {f : α → Act β} {w w' : World} {a : α} (h : X.exec p w = (.ok a, w')) :
    X.exec (p >>= f) w = X.exec (f a) w' := Prog.run_bind_ok X.handle h

theorem exec_allKeys (ns : Namespace) {rounds : Nat} (h : (X.walk ns w.store).length < rounds) :
    X.exec (allKeys rounds ns) w = (.ok (X.walk ns w.store), w) := by
  have hpages : Pages X.handle (· = w) ns (X.walk ns w.store) :=
    .of_take id (fun _ => le_refl _) (fun _ => id) (fun limit offset => by
      simp only [PrefixStore.handle, PrefixStore.search, ← List.map_drop, ← List.map_take, id])
  obtain ⟨w', hrun, rfl⟩ := run_allKeys hpages rfl h
  exact hrun

theorem exec_deleteAll (ns : Namespace) (keys : List String) (w : World) :
    X.exec (deleteAll ns keys) w = (.ok (), w.dropKeys ns keys) :=
  (X.exec_direct (only_deleteAll ns (fun _ => trivial) keys) w).trans (Engram.exec_deleteAll X.services w ns keys)

theorem direct_deleteThreads (pairs : List (String × String)) :
    (deleteThreads u pairs).Only (fun _ _ => True) Direct (fun _ => True) := by
  induction pairs with
  | nil => exact .pure trivial
  | cons p pairs ih => exact only_deleteThread trivial (only_storeDelete trivial ih)

/-- The threads found, sorted. -/
def threads (w : World) (u : String) : List String := ((X.walk (.threads u) w.store).map Prod.fst).insertionSort (· ≤ ·)

theorem exec_knownThreads (w : World) (u : String) :
    X.exec (knownThreads (X.rounds w u) u) w = (.ok (X.threads w u), w) := by
  rw [knownThreads, X.exec_bind (X.exec_allKeys (.threads u) (by unfold PrefixStore.rounds; omega))]
  rfl

theorem threads_perm (w : World) (u : String) : (X.threads w u).Perm ((hits users (.threads u) w.store).map Prod.fst) :=
  (List.perm_insertionSort _ _).trans ((X.walk_perm _ _).map _)

/-- The report counts all that was found. -/
theorem exec_forgetUser (h : ¬ ∃ t, w.Legacy u t) :
    ∃ w', X.exec (forgetUser (X.rounds w u) u) w = (.ok ⟨u, (hits users (.memories u) w.store).length,
      (hits users (.quarantine u) w.store).length, X.threads w u⟩, w') := by
  have hids : X.exec (checkpointIds u (X.threads w u)) w = (.ok ((X.threads w u).map (checkpointKey u)), w) :=
    (X.exec_direct (only_checkpointIds (fun _ => trivial) _) w).trans
      (exec_checkpointIds_ok X.services w (fun t _ hl => h ⟨t, hl⟩))
  set w₁ := w.dropKeys (.memories u) ((X.walk (.memories u) w.store).map Prod.fst)
  have hq : (X.walk (.quarantine u) w₁.store).length = (hits users (.quarantine u) w.store).length := by
    have hsame : ∀ v, (Namespace.quarantine u).entriesOf v w₁.store = (Namespace.quarantine u).entriesOf v w.store :=
      fun v => congrArg Dict.entries (w.store_dropKeys_of_ne _ (by simp))
    rw [(X.walk_perm _ _).length_eq]
    unfold hits
    simp only [hsame]
  have hround : X.rounds w u = (X.walk (.memories u) w.store).length + (hits users (.quarantine u) w.store).length +
      (X.walk (.threads u) w.store).length + 1 := by
    unfold PrefixStore.rounds
    rw [(X.walk_perm (.quarantine u) w.store).length_eq]
  set w₂ := w₁.dropKeys (.quarantine u) ((X.walk (.quarantine u) w₁.store).map Prod.fst)
  obtain ⟨w₃, hdel⟩ : ∃ w₃, X.exec (deleteThreads u ((X.threads w u).zip ((X.threads w u).map (checkpointKey u)))) w₂ =
      (.ok (), w₃) :=
    ⟨_, (X.exec_direct (direct_deleteThreads _) w₂).trans (exec_deleteThreads X.services w₂ u _)⟩
  refine ⟨w₃, ?_⟩
  rw [forgetUser, X.exec_bind (X.exec_knownThreads w u), X.exec_bind hids,
    X.exec_bind (X.exec_allKeys (.memories u) (by omega)), X.exec_bind (X.exec_deleteAll _ _ w),
    X.exec_bind (X.exec_allKeys (w := w₁) (.quarantine u) (by omega)), X.exec_bind (X.exec_deleteAll _ _ w₁),
    X.exec_bind hdel, hq, (X.walk_perm (.memories u) w.store).length_eq]
  rfl

theorem exec_forgetUser_legacy (hall : ∀ ns, w.store ns ≠ .empty → ns.user ∈ users) (h : ∃ t, w.Legacy u t) :
    X.exec (forgetUser (X.rounds w u) u) w = (.error .legacyThread, w) := by
  obtain ⟨t, e, hget, hkey⟩ := h
  have hmem : t ∈ X.threads w u := by
    refine (X.threads_perm w u).mem_iff.2 (List.mem_map.2 ⟨(t, e), mem_hits.2 ⟨u, ?_, startswith_self u, ?_⟩, rfl⟩)
    · refine hall (.threads u) (fun he => ?_)
      rw [he] at hget
      cases hget
    · exact Dict.get_eq_some_iff.1 hget
  have hids : X.exec (checkpointIds u (X.threads w u)) w = (.error .legacyThread, w) :=
    (X.exec_direct (only_checkpointIds (fun _ => trivial) _) w).trans
      (exec_checkpointIds_error X.services w ⟨t, hmem, e, hget, hkey⟩)
  rw [forgetUser, X.exec_bind (X.exec_knownThreads w u)]
  exact Prog.run_bind_error X.handle hids

/-- All that is inspected is the start of a walk. -/
theorem exec_allMemories (w : World) (u : String) :
    X.exec (MemoryReader.allMemories u) w = (.ok (((X.walk (.memories u) w.store).take 1000).map Prod.snd), w) := by
  show (Except.ok ((((X.search (.memories u) w.store none).drop 0).take 1000).map (·.value)), w) = _
  simp only [PrefixStore.search, List.drop_zero, ← List.map_take, List.map_map]
  rfl

/-! ## Whose records -/

/-- Reads for `u` see only records of `u`, and `forget_user` counts and deletes
no others. -/
structure Separate (w : World) (u : String) : Prop where
  recalled : ∀ (r : MemoryReader) query limit now recalls w',
    X.exec (r.recallFor u query limit now) w = (.ok recalls, w') → ∀ x ∈ recalls, x.memory.userId = u
  inspected : ∀ ms w', X.exec (MemoryReader.allMemories u) w = (.ok ms, w') → ∀ m ∈ ms, m.userId = u
  resolved : ∀ ms w', X.exec (MemoryManager.activeMemories u) w = (.ok ms, w') → ∀ m ∈ ms, m.userId = u
  reported : ∀ report w', X.exec (forgetUser (X.rounds w u) u) w = (.ok report, w') →
    report.memoriesDeleted = (w.mem u).size ∧ report.quarantineDeleted = (w.store (.quarantine u)).size ∧
      report.threadsDeleted.Perm (w.store (.threads u)).keys
  deleted : ∀ ns, ns.user ≠ u → (X.exec (forgetUser (X.rounds w u) u) w).2.store ns = w.store ns

/-- A store whose memories are matched, and of nobody else with a like name. -/
def Plain (u : String) (w : World) : Prop := w.Matched ∧ w.Alone (.memories u)

theorem plain_answered {G : String → Prop} (hgood : ∀ k, G k) (hw : Plain u w) (i : Call) :
    Answered u G i (X.handle i w).1 := by
  cases i with
  | search ns q limit offset =>
    cases ns with
    | memories v =>
      rintro rfl item hitem
      obtain ⟨v', -, hs, he⟩ := mem_hits.1 (X.search_mem (List.mem_of_mem_drop (List.mem_of_mem_take hitem)))
      by_cases hv : v' = v
      · subst hv
        obtain ⟨hid, huser⟩ := hw.1 _ _ _ (Dict.get_eq_some_iff.2 he)
        exact ⟨hid, huser, hgood _⟩
      · rw [entriesOf_eq_nil.2 (hw.2 v' hv hs)] at he
        cases he
    | _ => trivial
  | uuid4 => exact hgood _
  | _ => trivial

theorem plain_handle {G : String → Prop} {i : Call} (hi : WriteCall u G i) (hw : Plain u w) :
    Plain u (X.handle i w).2 := by
  have hothers : ∀ v, v ≠ u → (X.handle i w).2.mem v = w.mem v := by
    intro v hv
    cases i with
    | put ns k m =>
      cases ns with
      | memories u' =>
        obtain ⟨rfl, -⟩ := hi
        exact Backend.store_put_of_ne w k m (by simpa using hv)
      | quarantine => exact Backend.store_put_of_ne w k m (by simp)
      | threads => cases hi
    | embed text => exact w.mem_embed X.services text v
    | delete => cases hi
    | _ => rfl
  refine ⟨?_, fun v hv hs => (hothers v hv).trans (hw.2 v hv hs)⟩
  cases i with
  | put ns k m =>
    exact matched_handle X.services hw.1
      (fun v k' m' he => by cases he; exact ⟨hi.1.symm ▸ hi.2.1, hi.2.2.1⟩)
  | search => exact hw.1
  | _ => exact matched_handle X.services hw.1 (fun _ _ _ he => by cases he)

theorem exec_result {α : Type} {Q : α → Prop} {p : Act α} (hw : Plain u w)
    (hp : p.Only (Answered u (fun _ => True)) (WriteCall u (fun _ => True)) Q) {a : α} {w' : World}
    (h : X.exec p w = (.ok a, w')) : Q a :=
  (hp.run_inv (h := X.handle) (fun i _ hi hw => ⟨X.plain_answered (fun _ => trivial) hw i, X.plain_handle hi hw⟩) hw).2
    a (congrArg Prod.fst h)

theorem only_activeMemories :
    (MemoryManager.activeMemories u).Only (Answered u (fun _ => True)) (WriteCall u (fun _ => True))
    (fun ms => ∀ m ∈ ms, m.userId = u) := by
  refine only_storeSearch rfl
    (fun items hitems => (only_activeOnly trivial _).mono (fun _ => id) (fun ms hms m hm => ?_))
  obtain ⟨item, hitem, rfl⟩ := List.mem_map.1 (hms.subset hm)
  exact (hitems rfl item hitem).2.1

/-- `forget_user` deletes by the exact namespace. -/
theorem forgetUser_deletes (rounds : Nat) {ns : Namespace} (hns : ns.user ≠ u) :
    (X.exec (forgetUser rounds u) w).2.store ns = w.store ns := by
  have hinv := (only_forgetUser (A := fun _ _ => True) (u := u) rounds).run_inv (h := X.handle)
    (I := fun w' => w'.store ns = w.store ns) (fun i w' hi hw' => ⟨trivial, ?_⟩) (s := w) rfl
  · exact hinv.1
  · cases i with
    | delete ns' k =>
      have hne : ns ≠ ns' := by
        rintro rfl
        exact hns hi
      exact (Backend.store_delete_of_ne w' k hne).trans hw'
    | get | search | deleteThread => exact hw'
    | _ => cases hi

end PrefixStore

/-- A store that goes through the users in a given order. -/
def PrefixStore.ordered {users order : List String} (h : order.Perm users) : PrefixStore users where
  walk ns store := hits order ns store
  walk_perm ns store := h.flatMap_right _
  rank ns _ store := (hits users ns store).map (fun e => ⟨e.1, e.2, none⟩)
  rank_mem ns _ store item hitem := by
    obtain ⟨e, he, rfl⟩ := List.mem_map.1 hitem
    exact he
  services := .inMemory (fun _ => []) (fun _ _ => 0) (fun _ => none)

/-- If another user's memories come first, they are what is inspected. -/
theorem inspected_first {users : List String} {w : World} {u v : String} (hs : startswith v u) (hv : v ∈ users)
    {e : String × Memory} {rest : List (String × Memory)} (he : (w.mem v).entries = e :: rest) :
    e.2 ∈ (((PrefixStore.ordered (List.perm_cons_erase hv).symm).walk
      (.memories u) w.store).take 1000).map Prod.snd := by
  have hfirst : (PrefixStore.ordered (List.perm_cons_erase hv).symm).walk (.memories u) w.store =
      e :: (rest ++ hits (users.erase v) (.memories u) w.store) := by
    show hits (v :: users.erase v) (.memories u) w.store = _
    unfold hits
    rw [List.flatMap_cons, startswith_withUser, if_pos (show startswith v (Namespace.memories u).user from hs)]
    exact congrArg (· ++ _) he
  rw [hfirst]
  exact List.mem_cons_self

/-- With prefix search, whatever its order, a user's reads and deletion stay
apart from other users exactly if nobody whose id starts with the user's has
memories and, unless a legacy thread blocks the deletion, anything else. -/
theorem prefix_separate_iff {users : List String} (hnd : users.Nodup) {w : World} (hw : w.Matched)
    (hall : ∀ ns, w.store ns ≠ .empty → ns.user ∈ users) (u : String) :
    (∀ X : PrefixStore users, X.Separate w u) ↔
      w.Alone (.memories u) ∧ ((∃ t, w.Legacy u t) ∨ w.Alone (.quarantine u) ∧ w.Alone (.threads u)) := by
  constructor
  · intro h
    refine ⟨fun v hv hs => ?_, ?_⟩
    · by_contra hne
      have hmem : v ∈ users := hall (.memories v) hne
      obtain ⟨e, rest, he⟩ : ∃ e rest, (w.mem v).entries = e :: rest :=
        List.exists_cons_of_ne_nil (fun hnil => hne (Dict.ext_entries hnil))
      -- Let the walk start with the other user: the first memory shown is theirs.
      have huser :=
        (h (.ordered (List.perm_cons_erase hmem).symm)).inspected _ _ (PrefixStore.exec_allMemories _ w u) e.2
        (inspected_first hs hmem he)
      have hget : (w.mem v).get e.1 = some e.2 := Dict.get_eq_some_iff.2 (he ▸ List.mem_cons_self)
      exact hv ((hw v _ _ hget).2.symm.trans huser)
    · by_cases hlegacy : ∃ t, w.Legacy u t
      · exact .inl hlegacy
      · obtain ⟨w', hrun⟩ := (PrefixStore.ordered (.refl users)).exec_forgetUser hlegacy
        -- The report counts all hits, so the user's own are all there are.
        obtain ⟨-, hquarantine, hthreads⟩ := (h (.ordered (.refl users))).reported _ _ hrun
        refine .inr ⟨alone_of_length hall hquarantine, alone_of_length hall ?_⟩
        have hlen := ((PrefixStore.threads_perm _ w u).symm.trans hthreads).length_eq
        rwa [List.length_map, ← Dict.size_eq_keys] at hlen
  · rintro ⟨hmem, hrest⟩ X
    have hplain : PrefixStore.Plain u w := ⟨hw, hmem⟩
    have hwrites := own_writes u none (fun _ => True)
    refine ⟨fun r query limit now recalls w' h x hx => ?_, fun ms w' h m hm => ?_,
      fun ms w' h => ?_, fun report w' h => ?_, fun ns hns => X.forgetUser_deletes _ hns⟩
    · exact (X.exec_result hplain
        (only_recallFor hwrites.clock hwrites.search hwrites.found r query limit now) h x hx).1
    · rw [X.exec_allMemories] at h
      cases h
      obtain ⟨e, he, rfl⟩ := List.mem_map.1 hm
      have hfound := (X.walk_perm (.memories u) w.store).mem_iff.1 (List.mem_of_mem_take he)
      rw [hits_alone hnd (hall (.memories u)) hmem] at hfound
      exact (hw u _ _ (Dict.get_eq_some_iff.2 hfound)).2
    · exact X.exec_result hplain PrefixStore.only_activeMemories h
    · by_cases hlegacy : ∃ t, w.Legacy u t
      · rw [X.exec_forgetUser_legacy hall hlegacy] at h
        cases h
      · obtain ⟨hquarantine, hthreads⟩ := hrest.resolve_left hlegacy
        obtain ⟨w₁, hrun⟩ := X.exec_forgetUser hlegacy
        rw [hrun] at h
        cases h
        refine ⟨?_, ?_, ?_⟩
        · exact congrArg List.length (hits_alone hnd (hall (.memories u)) hmem)
        · exact congrArg List.length (hits_alone hnd (hall (.quarantine u)) hquarantine)
        · have hperm := X.threads_perm w u
          rwa [hits_alone hnd (hall (.threads u)) hthreads] at hperm

end Engram

/-! ## Al and Alice -/

namespace Engram

open Backend

attribute [local instance] ascii

def aliceNote : Memory where
  id := "a"
  userId := "alice"
  text := "Likes tea"
  text_ne := by decide
  kind := .semantic
  source := .user
  importance := .half
  createdAt := 1
  updatedAt := 1
  expiresAt := none
  supersededBy := none
  supersededAt := none
  attr := ""
  value := ""
  scope := ""
  threadId := none
  evidence := none

def aliceOnly : World := Backend.empty.put (.memories "alice") "a" aliceNote

theorem aliceOnly_store {ns : Namespace} (h : ns ≠ .memories "alice") : aliceOnly.store ns = .empty :=
  store_put_of_ne _ _ _ h

/-- Al inspects what is held about Alice. -/
theorem prefix_crossed : ∃ X : PrefixStore ["alice"],
    X.exec (MemoryReader.allMemories "al") aliceOnly = (.ok [aliceNote], aliceOnly) ∧ ¬ X.Separate aliceOnly "al" := by
  have hrun : (PrefixStore.ordered (.refl ["alice"])).exec (MemoryReader.allMemories "al") aliceOnly =
      (.ok [aliceNote], aliceOnly) := by
    rw [PrefixStore.exec_allMemories]
    have hwalk : (((PrefixStore.ordered (.refl ["alice"])).walk
        (.memories "al") aliceOnly.store).take 1000).map Prod.snd = [aliceNote] := by decide +kernel
    rw [hwalk]
  refine ⟨_, hrun, fun h => ?_⟩
  have huser := h.inspected _ _ hrun aliceNote (List.mem_singleton.2 rfl)
  exact absurd huser (by decide)

/-- Bob's reads stay his own. -/
theorem prefix_separate_iff_bob : (PrefixStore.ordered (.refl ["alice"])).Separate aliceOnly "bob" := by
  have hmatched : aliceOnly.Matched := matched_empty.put rfl rfl
  have hall : ∀ ns, aliceOnly.store ns ≠ .empty → ns.user ∈ ["alice"] := by
    intro ns hne
    by_cases hns : ns = .memories "alice"
    · subst hns
      exact List.mem_singleton.2 rfl
    · exact absurd (aliceOnly_store hns) hne
  have halone : ∀ ns : Namespace, ns.user = "bob" → aliceOnly.Alone ns := by
    intro ns hu v hv hs
    refine aliceOnly_store (fun he => ?_)
    have halice : v = "alice" := by
      have huser := congrArg Namespace.user he
      cases ns <;> exact huser
    rw [halice, hu] at hs
    exact absurd hs (by decide)
  exact (prefix_separate_iff (List.nodup_singleton _) hmatched hall "bob").2
    ⟨halone _ rfl, .inr ⟨halone _ rfl, halone _ rfl⟩⟩ _

end Engram
