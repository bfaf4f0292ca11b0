import Engram.Lib.Program
import Engram.Lib.Dict
/-!
# Programs over other calls

`interp` answers each call of a program by a program over other calls and
renames its errors. `run_interp` is the rule of data refinement: where `e` maps
the states of one handler to those of another, and the program for each call
does under `e` what the call does, the whole program does.

`Dict.mapVal` is the representation function for a dictionary whose values are
stored in another form.
-/

namespace Prog

variable {ι ι' : Type} {ο : ι → Type} {ο' : ι' → Type} {ε ε' α β σ τ : Type}

def interp (f : (i : ι) → Prog ι' ο' ε' (ο i)) (g : ε → ε') : Prog ι ο ε α → Prog ι' ο' ε' α
  | ret a => ret a
  | raise e => raise (g e)
  | call i k => f i >>= fun o => (k o).interp f g

theorem run_interp {f : (i : ι) → Prog ι' ο' ε' (ο i)} {g : ε → ε'} {h : (i : ι) → σ → ο i × σ}
    {h' : (i : ι') → τ → ο' i × τ} {e : σ → τ} (hf : ∀ i s, (f i).run h' (e s) = (.ok (h i s).1, e (h i s).2))
    (p : Prog ι ο ε α) (s : σ) : (p.interp f g).run h' (e s) = ((p.run h s).1.mapError g, e (p.run h s).2) := by
  induction p generalizing s with
  | ret a => rfl
  | raise x => rfl
  | call i k ih => rw [interp, run_bind_ok _ (hf i s), ih, run_call]

/-- Steps that each return, one after another. -/
theorem run_mapM {h : (i : ι) → σ → ο i × σ} {f : α → Prog ι ο ε β} {g : α → β} {s : σ} {l : List α}
    (hf : ∀ a ∈ l, (f a).run h s = (.ok (g a), s)) : (l.mapM f).run h s = (.ok (l.map g), s) := by
  induction l with
  | nil => rfl
  | cons a l ih =>
    rw [List.mapM_cons, run_bind_ok _ (hf a List.mem_cons_self),
      run_bind_ok _ (ih (fun b hb => hf b (List.mem_cons_of_mem a hb)))]
    rfl

end Prog

namespace Dict

variable {κ β γ : Type}

/-- The same keys, with other values. -/
def mapVal (f : β → γ) (d : Dict κ β) : Dict κ γ where
  entries := d.entries.map (fun e => (e.1, f e.2))
  nodup := by
    rw [List.map_map]
    exact d.nodup

@[simp] theorem size_mapVal (f : β → γ) (d : Dict κ β) : (d.mapVal f).size = d.size := by simp [mapVal, size]

@[simp] theorem mapVal_empty (f : β → γ) : (empty : Dict κ β).mapVal f = empty := rfl

variable [DecidableEq κ]

theorem get_mapVal (f : β → γ) (d : Dict κ β) (k : κ) : (d.mapVal f).get k = (d.get k).map f := by
  unfold get mapVal
  rw [List.find?_map, Option.map_map, Option.map_map]
  rfl

theorem set_mapVal (f : β → γ) (d : Dict κ β) (k : κ) (v : β) : (d.set k v).mapVal f = (d.mapVal f).set k (f v) := by
  refine ext_entries ?_
  have hkeys : (d.entries.map (fun e => (e.1, f e.2))).map Prod.fst = d.entries.map Prod.fst := by
    rw [List.map_map]
    rfl
  simp only [mapVal, set, assign, hkeys]
  split
  · rw [List.map_map, List.map_map]
    refine List.map_congr_left (fun e _ => ?_)
    by_cases he : e.1 = k <;> simp [he]
  · simp

theorem erase_mapVal (f : β → γ) (d : Dict κ β) (k : κ) : (d.erase k).mapVal f = (d.mapVal f).erase k := by
  refine ext_entries ?_
  simp only [mapVal, erase, List.filter_map]
  rfl

/-- `dict(fields)`. -/
def ofFields (fields : List (κ × β)) : Dict κ β := fields.foldl (fun d e => d.set e.1 e.2) empty

theorem entries_ofFields {fields : List (κ × β)} (h : (fields.map Prod.fst).Nodup) :
    (ofFields fields).entries = fields := by
  -- Fields whose keys are all new are appended in their order.
  have hfold : ∀ (d : Dict κ β), (∀ e ∈ fields, e.1 ∉ d.keys) →
      (fields.foldl (fun d e => d.set e.1 e.2) d).entries = d.entries ++ fields := by
    induction fields with
    | nil => simp
    | cons e fields ih =>
      intro d hd
      obtain ⟨hnot, hnd⟩ := List.nodup_cons.1 h
      rw [List.foldl_cons, ih hnd, entries_set_new _ (hd e List.mem_cons_self),
        List.append_assoc, List.singleton_append]
      intro e' he' hmem
      rcases mem_keys_set.1 hmem with hk | hk
      · exact hnot (hk ▸ List.mem_map_of_mem he')
      · exact hd e' (List.mem_cons_of_mem e he') hk
  exact hfold empty (by simp)

theorem get_ofFields {fields : List (κ × β)} (h : (fields.map Prod.fst).Nodup) {k : κ} {v : β}
    (hmem : (k, v) ∈ fields) : (ofFields fields).get k = some v := by
  rw [get_eq_some_iff, entries_ofFields h]
  exact hmem

end Dict
