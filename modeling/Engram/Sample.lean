import Engram.Benchmark
/-!
# A sample of a benchmark

`--limit` runs some cases of each kind. As cases do not disturb each other, a
run of the sample is the sample of the whole run.
-/

namespace Engram.Eval

open Backend

variable [Host]

/-! ## Up to so many of each kind -/

section Sampling
variable {α β : Type} (kind : α → CaseKind) (limit : Int)

/-- The loop of `_sample_per_kind`, with the counts so far. -/
def sampleFrom : (seen : CaseKind → Nat) → List α → List α
  | _, [] => []
  | seen, a :: as =>
    if (seen (kind a) : Int) < limit then a :: sampleFrom (Function.update seen (kind a) (seen (kind a) + 1)) as
    else sampleFrom seen as

/-- What `_sample_per_kind` does to cases. -/
def sampleOf (as : List α) : List α := sampleFrom kind limit (fun _ => 0) as

variable {kind limit}

omit [Host] in
theorem sampleFrom_sublist (seen : CaseKind → Nat) (as : List α) : (sampleFrom kind limit seen as).Sublist as := by
  induction as generalizing seen with
  | nil => exact .slnil
  | cons a as ih =>
    rw [sampleFrom]
    split
    · exact (ih _).cons_cons a
    · exact (ih seen).cons a

omit [Host] in
/-- Of each kind, the first that are still to come. -/
theorem filter_sampleFrom (k : CaseKind) (seen : CaseKind → Nat) (as : List α) :
    (sampleFrom kind limit seen as).filter (kind · = k) = (as.filter (kind · = k)).take (limit - seen k).toNat := by
  induction as generalizing seen with
  | nil => simp [sampleFrom]
  | cons a as ih =>
    rw [sampleFrom]
    by_cases hk : kind a = k
    · subst hk
      rw [List.filter_cons_of_pos (by simp)]
      split
      · next hlt =>
        rw [List.filter_cons_of_pos (by simp), ih, Function.update_self]
        have hroom : (limit - seen (kind a)).toNat = (limit - ((seen (kind a) + 1 : Nat) : Int)).toNat + 1 := by omega
        rw [hroom, List.take_succ_cons]
      · next hfull =>
        have hroom : (limit - seen (kind a)).toNat = 0 := by omega
        rw [ih, hroom, List.take_zero, List.take_zero]
    · rw [List.filter_cons_of_neg (by simp [hk])]
      split
      · rw [List.filter_cons_of_neg (by simp [hk]), ih, Function.update_of_ne (Ne.symm hk)]
      · exact ih seen

omit [Host] in
/-- Lists of the same kinds are sampled alike. -/
theorem forall₂_sampleFrom {kind' : β → CaseKind} {R : α → β → Prop} (hR : ∀ a b, R a b → kind' b = kind a)
    {as : List α} {bs : List β} (h : List.Forall₂ R as bs) (seen : CaseKind → Nat) :
    List.Forall₂ R (sampleFrom kind limit seen as) (sampleFrom kind' limit seen bs) := by
  induction h generalizing seen with
  | nil => exact .nil
  | @cons a b as bs hab _ ih =>
    rw [sampleFrom, sampleFrom, hR a b hab]
    split
    · exact .cons hab (ih _)
    · exact ih seen

omit [Host] in
theorem exists_of_forall₂ {R : α → β → Prop} {as : List α} {bs : List β} (h : List.Forall₂ R as bs) {a : α}
    (ha : a ∈ as) : ∃ b ∈ bs, R a b := by
  induction h with
  | nil => cases ha
  | @cons a' b as bs hab _ ih =>
    rcases List.mem_cons.1 ha with rfl | ha
    · exact ⟨b, List.mem_cons_self, hab⟩
    · obtain ⟨b', hb', hab'⟩ := ih ha
      exact ⟨b', List.mem_cons_of_mem _ hb', hab'⟩

end Sampling

/-- `_sample_per_kind`. -/
def samplePerKind (cases : List EvalCase) (limit : Int) : List EvalCase := sampleOf EvalCase.kind limit cases

/-! ## Running a sample -/

section Sampled
variable {S : Services} {feed : EvalCase → Input}

/-- A result has the kind of its case. -/
theorem kind_runCase {ag : Agent} {c : EvalCase} {memory : Bool} {w : World} {r : CaseResult}
    (h : (exec S (runCase ag c memory) w).1 = .ok r) : r.kind = c.kind := by
  have honly : (runCase ag c memory).Only (fun _ _ => True) (fun _ => True) (fun r => r.kind = c.kind) := by
    refine .seq (R := fun _ => True) (.top _) (fun _ _ => .seq (R := fun _ => True) (.top _) (fun trace _ => ?_))
    split
    · exact .seq (R := fun _ => True) (.top _) (fun stored _ => .pure rfl)
    · exact .pure rfl
  have hend :=
    (honly.run_inv (h := handle S) (I := fun _ => True) (fun _ _ _ _ => ⟨trivial, trivial⟩) (s := w) trivial).2
  exact hend r h

/-- For cases of different user keys, on any arm: where the whole benchmark returns,
so does a sample of it that feeds each case the same readings and ids, with the same
results of the sampled cases. These are, of each kind, the first in the file's order. -/
theorem runArm_sampled (hsha : Function.Injective Host.sha256) (settings : Settings) (recallTopK : Nat) (arm : Arm)
    (limit : Int) {cases : List EvalCase} (hkeys : (cases.map (·.userKey)).Nodup) {report : ArmReport}
    (h : runArm settings recallTopK S feed cases arm = .ok report) :
    ∃ results, runArm settings recallTopK S feed (samplePerKind cases limit) arm = .ok ⟨arm.label, results⟩ ∧
      results.Sublist report.results ∧
      ∀ k, results.filter (·.kind = k) = (report.results.filter (·.kind = k)).take limit.toNat := by
  have hsub : (samplePerKind cases limit).Sublist cases := sampleFrom_sublist _ cases
  have hkeys' : ((samplePerKind cases limit).map (·.userKey)).Nodup := hkeys.sublist (hsub.map _)
  have hwhole := apart_runCases feed (arm.agent settings recallTopK) arm.memory hsha hkeys
    (fun c _ => .refl S _ matched_empty (sound_empty S))
  have hsample := apart_runCases feed (arm.agent settings recallTopK) arm.memory hsha hkeys'
    (fun c _ => .refl S _ matched_empty (sound_empty S))
  obtain ⟨rs, hrs, rfl⟩ : ∃ rs,
      (runCases (arm.agent settings recallTopK) arm.memory S feed cases Backend.empty).1 = .ok rs ∧
      ⟨arm.label, rs⟩ = report := by
    unfold runArm at h
    cases hrs : (runCases (arm.agent settings recallTopK) arm.memory S feed cases Backend.empty).1 with
    | error e =>
      rw [hrs] at h
      cases h
    | ok rs =>
      rw [hrs] at h
      exact ⟨rs, rfl, Except.ok.inj h⟩
  rw [hrs] at hwhole
  have hresults : List.Forall₂ (fun c r => alone feed (arm.agent settings recallTopK) arm.memory S c = .ok r)
      (samplePerKind cases limit) (sampleOf CaseResult.kind limit rs) :=
    forall₂_sampleFrom (fun c r hr => kind_runCase hr) hwhole (fun _ => 0)
  refine ⟨sampleOf CaseResult.kind limit rs, ?_, sampleFrom_sublist _ rs, fun k => ?_⟩
  · unfold runArm
    cases hruns : (runCases (arm.agent settings recallTopK) arm.memory S feed
      (samplePerKind cases limit) Backend.empty).1 with
    | error e =>
      -- An error of the sample is one of a case alone, and all cases return.
      rw [hruns] at hsample
      obtain ⟨c, hc, he⟩ := hsample
      obtain ⟨r, -, hr⟩ := exists_of_forall₂ hresults hc
      cases he.symm.trans hr
    | ok rs' =>
      rw [hruns] at hsample
      have hsame : rs' = sampleOf CaseResult.kind limit rs :=
        List.right_unique_forall₂' (fun c r r' hr hr' => Except.ok.inj (hr.symm.trans hr')) hsample hresults
      rw [hsame]
      rfl
  · have hfirst : (sampleOf CaseResult.kind limit rs).filter (·.kind = k) =
        (rs.filter (·.kind = k)).take (limit - 0).toNat :=
      filter_sampleFrom k (fun _ => 0) rs
    rwa [Int.sub_zero] at hfirst

end Sampled

end Engram.Eval

/-! ## The first of two cases -/

namespace Engram.Eval

open Backend

attribute [local instance] ascii

/-- The cases are of one kind. -/
theorem runArm_sampled_first : ∃ report results,
    runArm {} 5 teamBackend feedOf [teaCase, sodaCase] naiveArm = .ok report ∧
      runArm {} 5 teamBackend feedOf (samplePerKind [teaCase, sodaCase] 1) naiveArm = .ok ⟨"naive", results⟩ ∧
      results.filter (·.kind = .injection) = (report.results.filter (·.kind = .injection)).take 1 := by
  have hkeys : ([teaCase, sodaCase].map (·.userKey)).Nodup := by decide +kernel
  have hok : (runArm {} 5 teamBackend feedOf [teaCase, sodaCase] naiveArm).toOption.isSome := by decide +kernel
  cases h : runArm {} 5 teamBackend feedOf [teaCase, sodaCase] naiveArm with
  | error e =>
    rw [h] at hok
    cases hok
  | ok report =>
    obtain ⟨results, hsampled, -, hfirst⟩ := runArm_sampled digest_injective {} 5 naiveArm 1 hkeys h
    exact ⟨report, results, rfl, hsampled, hfirst .injection⟩

end Engram.Eval
