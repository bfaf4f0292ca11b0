import Engram.Calls
import Engram.Extract
/-!
# The offline extractor and the check of expiries

A sentence is cut out of the turn where no word goes on, so a pattern without
`^` that is found in it is found in the turn. And what marks a sentence as
transient is one of the temporal markers.
-/

namespace Engram

open MemoryManager Re Text

variable [Host]

/-! ## Sentences are cut from the turn -/

section Sentences
variable (hw : WordChars)
include hw

theorem not_isWord_of_isTerminator : ∀ c, isTerminator c → isWord c = false := by
  intro c hc
  have hmem : c ∈ ['.', '!', '?'] := List.contains_iff_mem.1 hc
  simp only [List.mem_cons, List.not_mem_nil, or_false] at hmem
  rcases hmem with rfl | rfl | rfl <;> simp [isWord, hw.ascii]

/-- `before` is what came before the piece, reversed. -/
theorem cut_splitSentences {gap : Bool} {piece before rest : List Char} (hgap : gap → piece = [])
    (hbefore : wordFirst isWord before = false) {raw : String} (hraw : raw ∈ splitSentences gap piece rest) :
    Cut isWord (before.reverse ++ (piece.reverse ++ rest)) raw.toList := by
  induction rest generalizing gap piece before with
  | nil =>
    obtain rfl := List.mem_singleton.1 hraw
    exact ⟨before.reverse, [], by simp, by rwa [List.reverse_reverse], rfl⟩
  | cons c rest ih =>
    -- After a gap, the next piece is preceded by white space.
    have hnext : isSpace c → wordFirst isWord (c :: (piece ++ before)) = false := fun hc => hw.not_isWord c hc
    have htext : before.reverse ++ (piece.reverse ++ c :: rest) = (c :: (piece ++ before)).reverse ++ ([] ++ rest) := by
      simp
    rw [splitSentences] at hraw
    split at hraw
    · next hc =>
      rw [htext]
      exact ih (fun _ => rfl) (hnext hc.1) hraw
    split at hraw
    · next hc =>
      rcases List.mem_cons.1 hraw with rfl | hraw
      · rw [String.toList_ofList]
        exact ⟨before.reverse, c :: rest, rfl, by rwa [List.reverse_reverse], hw.not_isWord c hc.1⟩
      · rw [htext]
        exact ih (fun _ => rfl) (hnext hc.1) hraw
    · have h := ih (fun hfalse => by cases hfalse) hbefore hraw
      simpa using h

theorem cut_sentence {text : List Char} {raw : String} (h : raw ∈ splitSentences false [] text) :
    Cut isWord text raw.toList :=
  cut_splitSentences hw (fun hfalse => by cases hfalse) (show wordFirst isWord [] = false from rfl) h

theorem cut_strip (s : String) : Cut isWord s.toList (strip s).toList := by
  rw [strip_eq, String.toList_ofList]
  exact cut_stripped hw.not_isWord _

theorem cut_trimmed (raw : String) : Cut isWord raw.toList (trimmed raw).toList := by
  refine (cut_strip hw raw).trans (.trans ?_ (cut_strip hw _))
  rw [String.toList_ofList]
  exact cut_rdropWhile (not_isWord_of_isTerminator hw) _

/-- What is cut off ends with the bracket and white space. -/
theorem cut_datedTurn (text : String) : Cut isWord text.toList (cutStart isWord datedTurn text).toList := by
  rcases cutStart_cases isWord datedTurn text with h | ⟨m, htext, hm⟩
  · rw [h]
    exact .refl _
  · obtain ⟨k, sp, rfl, hk, hsp⟩ := matches_seq.1 hm
    have hfin : Finishes (· = ']') (cat [start, spaces, oneOf "[", datedTurn.noneOf1 "]", datedTurn.noneOf1 "]",
        datedTurn.noneOf1 "]", noneOf "]" 37, oneOf "]"]) := by
      simp [cat, Finishes, blank, oneOf]
    obtain ⟨l, c, rfl, rfl⟩ := hk.finishes hfin
    refine ⟨l ++ [']'] ++ sp, [], by simpa using htext, ?_, rfl⟩
    rw [List.reverse_append, List.reverse_append]
    cases hrev : sp.reverse with
    | nil => simp [wordFirst, isWord, hw.ascii]
    | cons c t =>
      have hc : c ∈ sp := List.mem_reverse.1 (hrev ▸ List.mem_cons_self)
      exact hw.not_isWord c (matches_many.1 hsp c hc)

end Sentences

/-! ## Transient sentences -/

/-- What is transient is temporal. -/
theorem temporal_of_transient {b m a : List Char} (h : Matches isWord transientPattern b m a) :
    Matches isWord temporalMarkerPattern b m a := by
  obtain ⟨k, n, rfl, hk, hn⟩ := matches_seq.1 h
  obtain ⟨m, n, rfl, hm, hn⟩ := matches_seq.1 hn
  refine .seq hk (.seq ?_ hn)
  obtain ⟨r, hr, hm⟩ := matches_either.1 hm
  simp only [List.mem_cons, List.not_mem_nil, or_false] at hr
  rcases hr with rfl | rfl | rfl | rfl
  · exact matches_either.2 ⟨_, by simp, hm⟩
  · exact matches_either.2 ⟨_, by simp, hm⟩
  · exact matches_either.2 ⟨_, by simp, hm⟩
  · obtain ⟨k, n, rfl, hk, hn⟩ := matches_seq.1 hm
    refine matches_either.2 ⟨seq (lit "this ") (either [lit "morning", lit "afternoon", lit "evening", lit "week",
      lit "month", lit "sprint", lit "quarter", lit "year"]), by simp, .seq hk (hn.either_of_subset ?_)⟩
    simp

theorem hasTemporalMarker_of_transient {text : String} (h : found transientPattern text) : hasTemporalMarker text := by
  obtain ⟨u, m, v, htext, hm⟩ := search_iff.1 h
  exact search_iff.2 ⟨u, m, v, htext, temporal_of_transient hm⟩

omit [Host] in
theorem transientPattern_noStart : transientPattern.noStart := by
  simp [transientPattern, cat, either, noStart, noStart_lit]

namespace RuleFactExtractor
variable {c : CandidateFact} {turn : String}

theorem fact_eq_some {sentence : String} (h : fact sentence = some c) :
    c.text = sentence ∧ c.ttlDays = if found transientPattern sentence then some transientTtlDays else none := by
  unfold fact at h
  split at h
  · cases h
  · dsimp only at h
    split at h
    · cases h
    · cases h
      exact ⟨rfl, rfl⟩

/-- A candidate says when it is transient. -/
theorem ttlDays_eq (hc : c ∈ extract turn) :
    c.ttlDays = if found transientPattern c.text then some transientTtlDays else none := by
  obtain ⟨raw, -, hfact⟩ := List.mem_filterMap.1 hc
  obtain ⟨htext, httl⟩ := fact_eq_some hfact
  rw [htext, httl]

/-- The sentences of a turn, trimmed, without a date in front. -/
def sentences (turn : String) : List String :=
  (splitSentences false [] (cutStart isWord datedTurn (strip turn)).toList).map trimmed

/-- Candidates are sentences. -/
theorem text_mem (hc : c ∈ extract turn) : c.text ∈ sentences turn := by
  obtain ⟨raw, hraw, hfact⟩ := List.mem_filterMap.1 hc
  rw [(fact_eq_some hfact).1]
  exact List.mem_map_of_mem hraw

theorem cut_sentences (hw : WordChars) {sentence : String} (h : sentence ∈ sentences turn) :
    Cut isWord (strip turn).toList sentence.toList := by
  obtain ⟨raw, hraw, rfl⟩ := List.mem_map.1 h
  exact (cut_datedTurn hw (strip turn)).trans ((cut_sentence hw hraw).trans (cut_trimmed hw raw))

theorem cut_text (hw : WordChars) (hc : c ∈ extract turn) : Cut isWord (strip turn).toList c.text.toList :=
  cut_sentences hw (text_mem hc)

/-- A transient sentence makes the whole turn temporal. -/
theorem marked (hw : WordChars) {sentence : String} (h : sentence ∈ sentences turn)
    (ht : found transientPattern sentence) : hasTemporalMarker (strip turn) :=
  hasTemporalMarker_of_transient (search_of_cut transientPattern_noStart (cut_sentences hw h) ht)

end RuleFactExtractor

/-! ## What is written -/

/-- The extractor is `f`. -/
def ExtractsBy (f : String → List CandidateFact) : (i : Call) → i.Ans → Prop
  | .extract turn, candidates => candidates = f turn
  | _, _ => True

/-- What a turn writes is made of its candidates, after the check of their expiries. -/
theorem written_apply (S : Services) (mm : MemoryManager) {u text : String} {threadId : Option String}
    {source : Provenance} {w w' : World} {report : WriteReport}
    (h : exec S (mm.apply u text threadId source) w = (.ok report, w')) :
    ∀ m ∈ report.written, ∃ c ∈ usable (S.extract (strip text)) (strip text), MadeOf u threadId source c m := by
  have hkeeps : Keeps u (fun _ => True) (ExtractsBy S.extract) (fun _ => True) := by constructor <;> simp
  have hanswers : ∀ i w, True → True → ExtractsBy S.extract i (handle S i w).1 ∧ True := by
    intro i w _ _
    cases i with
    | extract turn => exact ⟨rfl, trivial⟩
    | _ => exact ⟨trivial, trivial⟩
  have honly : (mm.apply u text threadId source).Only (ExtractsBy S.extract) (fun _ => True)
      (fun report => ∀ m ∈ report.written, True ∧ ∃ candidates, candidates = S.extract (strip text) ∧
        ∃ c ∈ usable candidates (strip text), MadeOf u threadId source c m) :=
    made_apply hkeeps mm (fun _ _ _ _ _ _ _ _ => trivial) (fun _ _ _ => trivial)
  intro m hm
  obtain ⟨-, _, rfl, hmade⟩ := (honly.run_inv hanswers (s := w) trivial).2 report (congrArg Prod.fst h) m hm
  exact hmade

/-! ## Temporary facts -/

omit [Host] in
theorem strip_strip (s : String) : strip (strip s) = strip s := by
  rw [strip_eq, strip_eq, String.toList_ofList, stripped_stripped]

theorem verifyTtl_text (c : CandidateFact) (turn : String) : (verifyTtl c turn).text = c.text := by
  unfold verifyTtl
  split <;> rfl

/-- `_verify_ttl` lets every expiry of the offline extractor pass: a transient sentence makes the whole turn temporal.
What a turn writes with it from such a sentence expires. -/
theorem offline_expiries_pass (hw : WordChars) (turn : String) :
    (∀ c ∈ RuleFactExtractor.extract (strip turn), c.ttlDays ≠ none → verifyTtl c (strip turn) = c) ∧
    (∀ sentence ∈ RuleFactExtractor.sentences (strip turn), found transientPattern sentence →
    hasTemporalMarker (strip turn)) ∧
    ∀ (S : Services) (mm : MemoryManager) (u : String) (threadId : Option String) (source : Provenance)
      (w w' : World) (report : WriteReport), S.extract = RuleFactExtractor.extract →
      exec S (mm.apply u turn threadId source) w = (.ok report, w') →
      ∀ m ∈ report.written, found transientPattern m.text → m.expiresAt ≠ none := by
  have hmarked : ∀ sentence ∈ RuleFactExtractor.sentences (strip turn), found transientPattern sentence →
      hasTemporalMarker (strip turn) := by
    intro sentence hs ht
    have h := RuleFactExtractor.marked hw hs ht
    rwa [strip_strip] at h
  have hpass : ∀ c ∈ RuleFactExtractor.extract (strip turn), c.ttlDays ≠ none → verifyTtl c (strip turn) = c := by
    intro c hc hne
    refine if_pos (.inr (hmarked _ (RuleFactExtractor.text_mem hc) ?_))
    by_contra hnot
    rw [RuleFactExtractor.ttlDays_eq hc, if_neg hnot] at hne
    exact hne rfl
  refine ⟨hpass, hmarked, fun S mm u threadId source w w' report hS h m hm ht hnever => ?_⟩
  obtain ⟨c, hc, hmade⟩ := written_apply S mm h m hm
  obtain ⟨c₀, hc₀, rfl⟩ := List.mem_map.1 (List.mem_filter.1 hc).1
  rw [hS] at hc₀
  -- The record has the text of its candidate, so the sentence gave that an expiry.
  have httl : c₀.ttlDays = some transientTtlDays := by
    have htext₀ : m.text = c₀.text := hmade.text.trans (verifyTtl_text c₀ _)
    rw [RuleFactExtractor.ttlDays_eq hc₀, ← htext₀, if_pos ht]
  have hsame := hpass c₀ hc₀ (by simp [httl])
  have hnone := hmade.expires.1 hnever
  rw [hsame, httl] at hnone
  cases hnone

end Engram

/-! ## A flaky test -/

namespace Engram

open Text

attribute [local instance] ascii

/-- The activity of today is a candidate with an expiry, which stays. -/
theorem offline_expiries_pass_debugging : ∃ c ∈ RuleFactExtractor.extract (strip "I'm debugging today."),
    c.ttlDays = some 7 ∧ MemoryManager.verifyTtl c (strip "I'm debugging today.") = c := by
  have hall : (RuleFactExtractor.extract (strip "I'm debugging today.")).map (·.ttlDays) = [some 7] := by
    decide +kernel
  have hmem : some 7 ∈ (RuleFactExtractor.extract (strip "I'm debugging today.")).map (·.ttlDays) := by
    rw [hall]
    exact List.mem_singleton_self _
  obtain ⟨c, hc, httl⟩ := List.mem_map.1 hmem
  exact ⟨c, hc, httl, (offline_expiries_pass ascii_wordChars "I'm debugging today.").1 c hc (by simp [httl])⟩

end Engram
