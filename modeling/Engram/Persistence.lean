import Engram.Dedupe
import Engram.Executions
import Engram.Lib.Interp
/-!
# Records as they are persisted

The store keeps a memory as a dictionary of JSON values: `to_value` writes it and
`from_value` reads it back (`schemas.py`). This module models both, and runs the
code over a store of such dictionaries. `run_persisted` says that the store of
records of the other modules is what that one amounts to.
-/

namespace Engram

open Backend Text

variable [Host]

/-! ## JSON -/

inductive Json where
  | null
  | bool (b : Bool)
  | num (q : Rat)
  | str (s : String)
  | arr (items : List Json)

/-- The `value` of a store item. -/
abbrev Value := Dict String Json

/-- What is left to pydantic: how a datetime is written in JSON, and which JSON
values are read as a datetime or a float. What it writes it reads back. -/
structure Pydantic where
  dumpTime : Time → String
  datetime : Json → Option Time
  float : Json → Option Rat
  datetime_dumpTime : ∀ t, datetime (.str (dumpTime t)) = some t
  float_num : ∀ q, float (.num q) = some q

namespace Json

def ofString? : Option String → Json
  | none => null
  | some s => str s

/-- A field declared `str`. -/
def toString? : Json → Option String
  | str s => some s
  | _ => none

/-- A field declared `X | None`. -/
def optional {α : Type} (parse : Json → Option α) : Json → Option (Option α)
  | null => some none
  | v => (parse v).map some

/-- `Field(min_length=1)`. -/
def nonempty (v : Json) : Option {s : String // s ≠ ""} :=
  v.toString?.bind (fun s => if h : s ≠ "" then some ⟨s, h⟩ else none)

end Json

def MemoryKind.ofStr (s : String) : Option MemoryKind := [semantic, episodic, procedural].find? (fun k => k.str = s)

def Provenance.ofStr (s : String) : Option Provenance := [user, agent, tool, document].find? (fun p => p.str = s)

omit [Host] in
@[simp] theorem MemoryKind.ofStr_str (k : MemoryKind) : ofStr k.str = some k := by cases k <;> decide

omit [Host] in
@[simp] theorem Provenance.ofStr_str (p : Provenance) : ofStr p.str = some p := by cases p <;> decide

/-- `Field(ge=0.0, le=1.0)`. -/
def Importance.ofRat (q : Rat) : Option Importance := if h : 0 ≤ q ∧ q ≤ 1 then some ⟨q, h.1, h.2⟩ else none

omit [Host] in
@[simp] theorem Importance.ofRat_val (i : Importance) : ofRat i.val = some i := dif_pos ⟨i.nonneg, i.le_one⟩

/-! ## A store of dictionaries -/

/-- A backend that keeps a `Value` for a memory, and the calls to it. -/
abbrev RawWorld := Backend Value
abbrev RawCall := CallOn Value
abbrev RawServices := Components Value

/-- The errors of the code, and pydantic's `ValidationError`. -/
inductive RawError where
  | code (e : Error)
  | validation
  deriving DecidableEq

abbrev RawAct := Prog RawCall CallOn.Ans RawError

/-! ## Writing and reading a memory -/

section Values
variable (P : Pydantic)

def Pydantic.time? : Option Time → Json
  | none => .null
  | some t => .str (P.dumpTime t)

/-- `model_dump(mode="json")`, field by field. -/
def Memory.fields (m : Memory) : List (String × Json) :=
  [("id", .str m.id), ("user_id", .str m.userId), ("text", .str m.text), ("kind", .str m.kind.str),
    ("source", .str m.source.str), ("importance", .num m.importance.val), ("created_at", .str (P.dumpTime m.createdAt)),
    ("updated_at", .str (P.dumpTime m.updatedAt)), ("expires_at", P.time? m.expiresAt),
    ("superseded_by", .ofString? m.supersededBy), ("superseded_at", P.time? m.supersededAt), ("attribute", .str m.attr),
    ("value", .str m.value), ("scope", .str m.scope), ("thread_id", .ofString? m.threadId),
    ("evidence", .ofString? m.evidence)]

/-- `Memory.to_value`. -/
def Memory.toValue (m : Memory) : Value :=
  let value := Dict.ofFields (m.fields P)
  if m.slotText ≠ "" then value.set "slot_text" (.str m.slotText) else value

/-- A field of a model: its default where it is missing, else what `parse` makes
of it. Pydantic collects further errors after the first; nothing shows that. -/
def field {α : Type} (value : Value) (name : String) (default : RawAct α) (parse : Json → Option α) : RawAct α :=
  match value.get name with
  | none => default
  | some v => match parse v with
    | none => .raise .validation
    | some a => return a

/-- A field without a default. -/
def missing {α : Type} : RawAct α := .raise .validation

/-- `Memory.from_value`. Keys that are no fields are ignored. -/
def Memory.fromValue (value : Value) : RawAct Memory := do
  let id ← field value "id" (.call .uuid4 .ret) Json.toString?
  let userId ← field value "user_id" missing Json.toString?
  let text ← field value "text" missing Json.nonempty
  let kind ← field value "kind" (return .semantic) (fun v => v.toString?.bind MemoryKind.ofStr)
  let source ← field value "source" (return .user) (fun v => v.toString?.bind Provenance.ofStr)
  let importance ← field value "importance" (return .half) (fun v => (P.float v).bind Importance.ofRat)
  let createdAt ← field value "created_at" (.call .utcnow .ret) P.datetime
  let updatedAt ← field value "updated_at" (.call .utcnow .ret) P.datetime
  let expiresAt ← field value "expires_at" (return none) (Json.optional P.datetime)
  let supersededBy ← field value "superseded_by" (return none) (Json.optional Json.toString?)
  let supersededAt ← field value "superseded_at" (return none) (Json.optional P.datetime)
  let attr ← field value "attribute" (return "") Json.toString?
  let val ← field value "value" (return "") Json.toString?
  let scope ← field value "scope" (return "") Json.toString?
  let threadId ← field value "thread_id" (return none) (Json.optional Json.toString?)
  let evidence ← field value "evidence" (return none) (Json.optional Json.toString?)
  return { id, userId, text := text.1, text_ne := text.2, kind, source, importance, createdAt, updatedAt, expiresAt,
           supersededBy, supersededAt, attr, value := val, scope, threadId, evidence }

/-- `fields=["text", "slot_text"]`: what the vector index embeds of a value. -/
def indexed (value : Value) : List String :=
  ["text", "slot_text"].filterMap (fun f => (value.get f).bind Json.toString?)

end Values

/-! ## What is written is read back -/

section RoundTrip
variable {P : Pydantic} {m : Memory}

omit [Host] in
theorem nodup_fields : ((m.fields P).map Prod.fst).Nodup := by
  simp [Memory.fields]

omit [Host] in
/-- Beside the fields of the model there is only `slot_text`. -/
theorem get_toValue {name : String} {v : Json} (h : (name, v) ∈ m.fields P) : (m.toValue P).get name = some v := by
  have hne : name ≠ "slot_text" := by
    rintro rfl
    simp [Memory.fields] at h
  have hget := Dict.get_ofFields nodup_fields h
  unfold Memory.toValue
  dsimp only
  split
  · rw [Dict.get_set_of_ne _ _ hne, hget]
  · exact hget

theorem field_toValue {α : Type} {name : String} {v : Json} {default : RawAct α} {parse : Json → Option α} {a : α}
    (h : (name, v) ∈ m.fields P) (hparse : parse v = some a) : field (m.toValue P) name default parse = pure a := by
  unfold field
  rw [get_toValue h]
  simp [hparse]

omit [Host] in
theorem optional_ofString? (s : Option String) : Json.optional Json.toString? (Json.ofString? s) = some s := by
  cases s <;> rfl

omit [Host] in
theorem optional_time? (t : Option Time) : Json.optional P.datetime (P.time? t) = some t := by
  cases t with
  | none => rfl
  | some t => simp [Pydantic.time?, Json.optional, P.datetime_dumpTime]

omit [Host] in
theorem nonempty_text : Json.nonempty (.str m.text) = some ⟨m.text, m.text_ne⟩ := by
  simp [Json.nonempty, Json.toString?, m.text_ne]

/-- Reading a record back gives the record, and asks for no default. -/
theorem fromValue_toValue (m : Memory) : Memory.fromValue P (m.toValue P) = pure m := by
  unfold Memory.fromValue
  have hkind : (Json.str m.kind.str).toString?.bind MemoryKind.ofStr = some m.kind := MemoryKind.ofStr_str m.kind
  have hsource : (Json.str m.source.str).toString?.bind Provenance.ofStr = some m.source :=
    Provenance.ofStr_str m.source
  have himportance : (P.float (.num m.importance.val)).bind Importance.ofRat = some m.importance := by
    simp [P.float_num]
  have hstr : ∀ s, (Json.str s).toString? = some s := fun _ => rfl
  obtain ⟨l, hl⟩ : ∃ l, l = m.fields P := ⟨_, rfl⟩
  have hin : ∀ e ∈ m.fields P, e ∈ l := fun e he => hl ▸ he
  simp only [Memory.fields, List.forall_mem_cons] at hin
  obtain ⟨hid, huser, htext, hkind', hsource', himportance', hcreated, hupdated, hexpires, hby,
    hat, hattr, hvalue, hscope, hthread, hevidence, -⟩ := hin
  subst hl
  rw [field_toValue hid (hstr _), pure_bind, field_toValue huser (hstr _), pure_bind,
    field_toValue htext nonempty_text, pure_bind,
    field_toValue hkind' hkind, pure_bind, field_toValue hsource' hsource, pure_bind,
    field_toValue himportance' himportance, pure_bind, field_toValue hcreated (P.datetime_dumpTime _), pure_bind,
    field_toValue hupdated (P.datetime_dumpTime _), pure_bind, field_toValue hexpires (optional_time? _), pure_bind,
    field_toValue hby (optional_ofString? _), pure_bind, field_toValue hat (optional_time? _), pure_bind,
    field_toValue hattr (hstr _), pure_bind, field_toValue hvalue (hstr _), pure_bind,
      field_toValue hscope (hstr _), pure_bind,
    field_toValue hthread (optional_ofString? _), pure_bind, field_toValue hevidence (optional_ofString? _), pure_bind]

end RoundTrip

/-! ## The world of dictionaries -/

section Persist
variable (P : Pydantic)

def Namespace.dump : (ns : Namespace) → ns.Val → ns.ValOf Value
  | memories _, m => m.toValue P
  | quarantine _, q => q
  | threads _, e => e

def Namespace.read : (ns : Namespace) → ns.ValOf Value → RawAct ns.Val
  | memories _, value => Memory.fromValue P value
  | quarantine _, q => return q
  | threads _, e => return e

def Namespace.readFound (ns : Namespace) : Option (ns.ValOf Value) → RawAct (Option ns.Val)
  | none => return none
  | some value => some <$> ns.read P value

/-- Each call over the store of dictionaries: what is put is dumped, what is
found is read. (Where the code looks at keys only, it does not read.) -/
def persisted : (i : Call) → RawAct i.Ans
  | .get ns key => .call (.get ns key) (fun found => ns.readFound P found)
  | .search ns query limit offset => .call (.search ns query limit offset) (fun items => items.mapM (fun item =>
    (fun value => ⟨item.key, value, item.score⟩) <$> ns.read P item.value))
  | .put ns key value => .call (.put ns key (ns.dump P value)) .ret
  | .delete ns key => .call (.delete ns key) .ret
  | .getState thread => .call (.getState thread) .ret
  | .saveState thread messages => .call (.saveState thread messages) .ret
  | .deleteThread thread => .call (.deleteThread thread) .ret
  | .utcnow => .call .utcnow .ret
  | .uuid4 => .call .uuid4 .ret
  | .embed text => .call (.embed text) .ret
  | .extract turn => .call (.extract turn) .ret
  | .invoke prompt => .call (.invoke prompt) .ret

/-- The world whose records are those of `w`, dumped. -/
def Backend.persist (w : World) : RawWorld where
  store ns := (w.store ns).mapVal (ns.dump P)
  checkpoints := w.checkpoints
  vectors := w.vectors
  clock := w.clock
  ids := w.ids
  now := w.now
  issued := w.issued

/-- The components as the code meets them: the records for the dictionaries. -/
def Components.records (R : RawServices) : Services where
  walk ns d := (R.walk ns (d.mapVal (ns.dump P))).filterMap (fun e => (d.get e.1).map (fun v => (e.1, v)))
  walk_perm ns d := by
    refine ((R.walk_perm ns _).filterMap _).trans (List.Perm.of_eq ?_)
    simp only [Dict.mapVal, List.filterMap_map]
    refine (List.filterMap_congr (g := some) (fun e he => ?_)).trans List.filterMap_some
    simp [Dict.get_eq_some_iff.2 (show (e.1, e.2) ∈ d.entries from he)]
  rank ns q d := (R.rank ns q (d.mapVal (ns.dump P))).filterMap
    (fun item => (d.get item.key).map (fun v => ⟨item.key, v, item.score⟩))
  rank_mem ns q d item h := by
    obtain ⟨raw, -, hraw⟩ := List.mem_filterMap.1 h
    obtain ⟨v, hget, rfl⟩ := Option.map_eq_some_iff.1 hraw
    exact Dict.get_eq_some_iff.1 hget
  extract := R.extract
  embed := R.embed
  invoke := R.invoke

end Persist

/-! ## The same runs -/

section Refinement
variable {P : Pydantic} {R : RawServices}

theorem read_dump (ns : Namespace) (v : ns.Val) : ns.read P (ns.dump P v) = pure v := by
  cases ns with
  | memories u => exact fromValue_toValue v
  | quarantine u => rfl
  | threads u => rfl

theorem readFound_map (ns : Namespace) (found : Option ns.Val) :
    ns.readFound P (found.map (ns.dump P)) = pure found := by
  cases found with
  | none => rfl
  | some v =>
    rw [Option.map_some, Namespace.readFound, read_dump]
    rfl

omit [Host] in
theorem map_filterMap_back {α β : Type} {f : α → Option β} {g : β → α} {l : List α}
    (h : ∀ a ∈ l, ∃ b, f a = some b ∧ g b = a) : (l.filterMap f).map g = l := by
  induction l with
  | nil => rfl
  | cons a l ih =>
    obtain ⟨b, hf, hg⟩ := h a List.mem_cons_self
    rw [List.filterMap_cons_some hf, List.map_cons, hg, ih (fun a' ha => h a' (List.mem_cons_of_mem a ha))]

/-- A search of the dictionaries finds the records, dumped. -/
theorem search_mapVal (ns : Namespace) (d : Dict String ns.Val) (q : Option String) :
    R.search ns (d.mapVal (ns.dump P)) q =
      ((R.records P).search ns d q).map (fun item => ⟨item.key, ns.dump P item.value, item.score⟩) := by
  have hfound : ∀ key (value : ns.ValOf Value), (key, value) ∈ (d.mapVal (ns.dump P)).entries →
      ∃ v, d.get key = some v ∧ ns.dump P v = value := by
    intro key value hmem
    obtain ⟨e, he, heq⟩ := List.mem_map.1 hmem
    cases heq
    exact ⟨e.2, Dict.get_eq_some_iff.2 he, rfl⟩
  cases q with
  | none =>
    have hwalk : ((R.records P).walk ns d).map (fun e => (e.1, ns.dump P e.2)) = R.walk ns (d.mapVal (ns.dump P)) := by
      refine map_filterMap_back (fun e he => ?_)
      obtain ⟨v, hget, hv⟩ := hfound e.1 e.2 ((R.walk_perm ns _).mem_iff.1 he)
      exact ⟨(e.1, v), by rw [hget]; rfl, by rw [hv]⟩
    change (R.walk ns (d.mapVal (ns.dump P))).map _ = (((R.records P).walk ns d).map _).map _
    rw [← hwalk, List.map_map, List.map_map]
    rfl
  | some q =>
    refine (map_filterMap_back (fun item hitem => ?_)).symm
    obtain ⟨v, hget, hv⟩ := hfound item.key item.value (R.rank_mem ns q _ item hitem)
    exact ⟨⟨item.key, v, item.score⟩, by rw [hget]; rfl, by rw [hv]⟩

theorem persist_store (w : World) (ns : Namespace) : (w.persist P).store ns = (w.store ns).mapVal (ns.dump P) := rfl

theorem persist_update (w : World) (ns : Namespace) (d : Dict String ns.Val) :
    Backend.persist P { w with store := Function.update w.store ns d } =
      { w.persist P with store := Function.update (w.persist P).store ns (d.mapVal (ns.dump P)) } := by
  have hstore : (fun ns' => (Function.update w.store ns d ns').mapVal (ns'.dump P)) =
      Function.update (w.persist P).store ns (d.mapVal (ns.dump P)) := by
    funext ns'
    by_cases h : ns' = ns
    · subst h
      rw [Function.update_self, Function.update_self]
    · rw [Function.update_of_ne h, Function.update_of_ne h]
      rfl
  unfold Backend.persist at hstore ⊢
  rw [hstore]

/-- A call does to the dictionaries what it does to the records. -/
theorem run_persisted_call (i : Call) (w : World) : (persisted P i).run (handle R) (w.persist P) =
    (.ok (handle (R.records P) i w).1, (handle (R.records P) i w).2.persist P) := by
  cases i with
  | get ns key =>
    rw [persisted, Prog.run_call]
    change (ns.readFound P (((w.store ns).mapVal (ns.dump P)).get key)).run (handle R) (w.persist P) = _
    rw [Dict.get_mapVal, readFound_map]
    rfl
  | search ns q limit offset =>
    rw [persisted, Prog.run_call]
    have hitems : (handle R (.search ns q limit offset) (w.persist P)).1 =
        (handle (R.records P) (.search ns q limit offset) w).1.map
          (fun item => ⟨item.key, ns.dump P item.value, item.score⟩) := by
      change ((R.search ns ((w.store ns).mapVal (ns.dump P)) q).drop offset).take limit = _
      rw [search_mapVal, ← List.map_drop, ← List.map_take]
      rfl
    rw [hitems, List.mapM_map]
    refine (Prog.run_mapM (g := id) (fun item _ => ?_)).trans (by rw [List.map_id]; rfl)
    simp only [Function.comp, read_dump]
    rfl
  | put ns key value =>
    have hput := persist_update (P := P) w ns ((w.store ns).set key value)
    rw [Dict.set_mapVal] at hput
    exact congrArg (fun x => (Except.ok (), x)) hput.symm
  | delete ns key =>
    have hdelete := persist_update (P := P) w ns ((w.store ns).erase key)
    rw [Dict.erase_mapVal] at hdelete
    exact congrArg (fun x => (Except.ok (), x)) hdelete.symm
  | embed text =>
    have hembed : handle R (.embed text) (w.persist P) =
        ((handle (R.records P) (.embed text) w).1, (handle (R.records P) (.embed text) w).2.persist P) := by
      cases hget : w.vectors.get text <;>
        simp [handle, Backend.embed, Backend.persist, hget, Components.records]
    rw [persisted, Prog.run_call, hembed]
    rfl
  | _ => rfl

/-- A program over the store of dictionaries does what it does over the store of
records: it returns or raises the same, and leaves those records, dumped. In
particular no record fails its validation. -/
theorem run_persist {α : Type} (p : Act α) (w : World) :
    (p.interp (persisted P) RawError.code).run (handle R) (w.persist P) =
    ((exec (R.records P) p w).1.mapError .code, (exec (R.records P) p w).2.persist P) :=
  Prog.run_interp run_persisted_call p w

end Refinement

/-! ## Runs -/

/-- An operation as it was executed over the store of dictionaries. -/
structure RawDone where
  op : Op
  input : Input
  result : Except RawError Outcome

/-- One operation over the store of dictionaries, by some components. -/
structure Agent.RawExecutes (P : Pydantic) (ag : Agent) (x : RawWorld) (d : RawDone) (x' : RawWorld) : Prop where
  valid : d.input.Valid x
  run : ∃ R, ((ag.act (d.op.rounds x) d.op).interp (persisted P) RawError.code).run (handle R) (x.given d.input) =
    (d.result, x')

def Done.raw (d : Done) : RawDone := ⟨d.op, d.input, d.result.mapError .code⟩

section Runs
variable {P : Pydantic} {ag : Agent} {w : World} {x x' : RawWorld} {d : RawDone} {m : Memory}

theorem rounds_persist (op : Op) (w : World) (i : Input) : op.rounds (w.persist P) = op.rounds (w.given i) := by
  have hrounds : ∀ u, (w.persist P).rounds u = (w.given i).rounds u := by
    intro u
    simp only [Backend.rounds, persist_store, Dict.size_mapVal]
    rfl
  cases op <;> first | rfl | exact hrounds _

/-- An operation over the dictionaries is one over the records. -/
theorem Agent.RawExecutes.records (h : ag.RawExecutes P (w.persist P) d x') :
    ∃ d' w', ag.Executes w d' w' ∧ d = d'.raw ∧ x' = w'.persist P := by
  obtain ⟨R, hrun⟩ := h.run
  rw [rounds_persist d.op w d.input, show (w.persist P).given d.input = (w.given d.input).persist P from rfl,
    run_persist] at hrun
  obtain ⟨hresult, rfl⟩ := Prod.mk.inj hrun
  refine ⟨⟨d.op, d.input, (ag.perform (R.records P) d.op (w.given d.input)).1⟩, _,
    ⟨⟨h.valid.clock_mono, h.valid.now_le, h.valid.ids_inj, h.valid.ids_new⟩, R.records P, rfl⟩, ?_, rfl⟩
  obtain ⟨op, input, result⟩ := d
  unfold Done.raw
  dsimp only at hresult ⊢
  rw [← hresult]
  rfl

omit [Host] in
theorem get_slotText : (m.toValue P).get "slot_text" = if m.slotText = "" then none else some (.str m.slotText) := by
  have hno : (Dict.ofFields (m.fields P)).get "slot_text" = none := by
    rw [Dict.get_eq_none_iff, Dict.keys, Dict.entries_ofFields nodup_fields]
    simp [Memory.fields]
  unfold Memory.toValue
  by_cases h : m.slotText = "" <;> simp [h, hno]

omit [Host] in
/-- A record is indexed by its text, and by its slot if it has one. -/
theorem indexed_toValue : indexed (m.toValue P) = m.text :: if m.slotText = "" then [] else [m.slotText] := by
  have htext : (m.toValue P).get "text" = some (.str m.text) := get_toValue (by simp [Memory.fields])
  unfold indexed
  rw [List.filterMap_cons_some (b := m.text) (by rw [htext]; rfl), List.filterMap_cons, get_slotText]
  by_cases h : m.slotText = "" <;> simp [h, Json.toString?]

/-- Over a store of JSON dictionaries every run of operations does what it does
over a store of records: no validation ever fails, each dictionary reads back as
the record that was written, under its id and user, and none is indexed by an
empty text. -/
theorem run_persisted {ds : List RawDone} (h : Steps (ag.RawExecutes P) Backend.empty ds x) :
    ∃ w, Steps (fun w d w' => ∃ d', ag.Executes w d' w' ∧ d = d'.raw) Backend.empty ds w ∧ x = w.persist P ∧
      ∀ u key value, (x.store (.memories u)).get key = some value →
        (∃ m, Memory.fromValue P value = pure m ∧ value = m.toValue P ∧ m.id = key ∧ m.userId = u) ∧
          ∀ text ∈ indexed value, text ≠ "" := by
  have hstep : ∀ x d x' w, x = w.persist P → ag.RawExecutes P x d x' →
      ∃ w', (∃ d', ag.Executes w d' w' ∧ d = d'.raw) ∧ x' = w'.persist P := by
    intro x d x' w hx hd
    subst hx
    obtain ⟨d', w', hexec, hraw, rfl⟩ := hd.records
    exact ⟨w', ⟨d', hexec, hraw⟩, rfl⟩
  obtain ⟨w, hsteps, rfl⟩ := h.simulated (t := Backend.empty) hstep rfl
  have hkeyed : w.Keyed := hsteps.inv (fun _ _ _ hk hd => by
    obtain ⟨d', hexec, -⟩ := hd
    exact hexec.keyed hk) keyed_empty
  refine ⟨w, hsteps, rfl, fun u key value hget => ?_⟩
  rw [persist_store, Dict.get_mapVal] at hget
  obtain ⟨m, hm, rfl⟩ := Option.map_eq_some_iff.1 hget
  refine ⟨⟨m, fromValue_toValue m, rfl, hkeyed.id_eq hm, hkeyed.user_eq hm⟩, ?_⟩
  change ∀ text ∈ indexed (m.toValue P), text ≠ ""
  rw [indexed_toValue]
  intro text hmem
  rcases List.mem_cons.1 hmem with rfl | hmem
  · exact m.text_ne
  · split at hmem
    · cases hmem
    · next hslot => rwa [List.mem_singleton.1 hmem]

end Runs

end Engram

/-! ## A team in JSON -/

namespace Engram

open Backend MemoryManager

attribute [local instance] ascii

/-- The first microsecond as pydantic writes it, and decimal numbers for the others. -/
def isoFirst : Pydantic where
  dumpTime t := if t = 1 then "0001-01-01T00:00:00.000001Z" else t.repr
  datetime v := v.toString?.bind (fun s => if s = "0001-01-01T00:00:00.000001Z" then some 1 else s.toNat?)
  float
    | .num q => some q
    | _ => none
  datetime_dumpTime t := by
    by_cases h : t = 1
    · simp [h, Json.toString?]
    · have hne : t.repr ≠ "0001-01-01T00:00:00.000001Z" := by
        intro he
        have hdash : '-' ∈ t.repr.toList := by
          rw [he]
          decide
        rw [Nat.repr_eq_ofList_toDigits, String.toList_ofList] at hdash
        exact absurd (Nat.isDigit_of_mem_toDigits (by decide) (by decide) hdash) (by decide)
      simp [h, hne, Json.toString?]
  float_num _ := rfl

def teamRaw : RawServices :=
  .inMemory (fun text => [.stating "team" text none]) (fun _ _ => 1) (fun _ => some "ok")

/-- `joined`, as dictionaries. -/
def rawJoined : Except RawError Outcome × RawWorld :=
  ((Agent.act ⟨⟨5⟩, .manager lenient, true⟩ 0 (.observe "alice" "payments" none .user)).interp
    (persisted isoFirst) RawError.code).run (handle teamRaw) (Backend.empty.given (.at 1 'a'))

/-- The record is there, and is found by its text and by its slot. -/
theorem run_persisted_joined : ∃ value m, (rawJoined.2.store (.memories "alice")).get "a" = some value ∧
    indexed value = ["team=payments", "team payments"] ∧ Memory.fromValue isoFirst value = pure m ∧ m.id = "a" := by
  have hvalid : (Input.at 1 'a').Valid (Backend.empty : RawWorld) := Input.at_valid (by decide) (by decide)
  have hsteps : Steps (Agent.RawExecutes isoFirst ⟨⟨5⟩, .manager lenient, true⟩) Backend.empty _ rawJoined.2 :=
    .snoc .nil (l := ⟨.observe "alice" "payments" none .user, .at 1 'a', rawJoined.1⟩)
      ⟨hvalid, teamRaw, rfl⟩
  obtain ⟨w, -, -, hread⟩ := run_persisted hsteps
  have hindexed : ((rawJoined.2.store (.memories "alice")).get "a").map indexed =
      some ["team=payments", "team payments"] := by
    decide +kernel
  obtain ⟨value, hget, hvalue⟩ := Option.map_eq_some_iff.1 hindexed
  obtain ⟨⟨m, hm, -, hid, -⟩, -⟩ := hread "alice" "a" value hget
  exact ⟨value, m, hget, hvalue, hm, hid⟩

end Engram
