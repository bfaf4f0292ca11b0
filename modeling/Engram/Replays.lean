import Engram.Benchmark
import Engram.Locomo
import Engram.Told
/-!
# Replayed conversations

The conversations of LoCoMo share one store and one checkpointer, as the cases
of the benchmark do. With different sample ids each is measured as if it were
alone, and every question is put to the model without what was said before.
-/

namespace Engram.Locomo

open Backend Text Fallible

variable [Host]

/-! ## One conversation -/

/-- The result for a question is what its answer scores. -/
structure Graded (user : String) (judge : Judge) (q : LocomoQuestion) (r : LocomoResult) : Prop where
  asked : (r.sampleId, r.question, r.category, r.gold) = (user, q.question, q.category, q.answer)
  scored : scoreLocomoAnswer q r.answer judge = .ok ⟨r.correct, r.reason⟩

/-- The questions from position `i` on have their results in order. -/
def AllGraded (user : String) (judge : Nat → Judge) : Nat → List LocomoQuestion → List LocomoResult → Prop
  | _, [], results => results = []
  | i, q :: qs, results => ∃ r rs, results = r :: rs ∧ Graded user (judge i) q r ∧ AllGraded user judge (i + 1) qs rs

section One
variable {S : Services} (ag : Agent) {u : String} {judge : Nat → Judge} {w w' : World}

theorem only_replayTurns (session : LocomoSession) (turns : List LocomoTurn) (n : Nat) :
    (replayTurns ag u session turns n).Only (Answered u (fun _ => True)) (LocalPut u) (fun _ => True) := by
  induction turns generalizing n with
  | nil => exact .pure trivial
  | cons turn turns ih =>
    refine .seq (R := fun _ => True) ((only_writer (own_writes u (some session.key) _) ag.writer _ .user).mono ?_ ?_)
      (fun _ _ => ih (n + 1))
    · exact fun _ => .of_write
    · exact fun _ _ => trivial

theorem only_replaySessions (sessions : List LocomoSession) (n : Nat) :
    (replaySessions ag u sessions n).Only (Answered u (fun _ => True)) (LocalPut u) (fun _ => True) := by
  induction sessions generalizing n with
  | nil => exact .pure trivial
  | cons session sessions ih => exact .seq (only_replayTurns ag session session.turns n) (fun n _ => ih n)

theorem only_askFrom (i : Nat) (qs : List LocomoQuestion) :
    (askFrom ag u judge i qs).Only (Answered u (fun _ => True)) (LocalPut u) (fun _ => True) := by
  induction qs generalizing i with
  | nil => exact .pure trivial
  | cons q qs ih =>
    refine .seq (Eval.only_own_chat ag u _ _) (fun trace _ => ?_)
    split
    · exact .pure trivial
    · exact .seq (ih (i + 1)) (fun _ _ => .pure trivial)

/-- A conversation makes calls on the data of its sample id only. -/
theorem only_conversationPart (c : LocomoConversation) (judge : Nat → Judge) (maxQuestions : Option Int) :
    (conversationPart ag c judge maxQuestions).Only (Answered c.sampleId (fun _ => True)) (LocalPut c.sampleId)
      (fun _ => True) := by
  refine .seq (R := fun _ => True) ?_ (fun part _ => ?_)
  · refine .seq (only_replaySessions ag c.sessions 0) (fun _ _ => ?_)
    exact .seq (only_askFrom ag 0 _) (fun _ _ => .pure trivial)
  · split
    · exact .pure trivial
    · exact .seq (Eval.only_liveMemories c.sampleId) (fun _ _ => .pure trivial)

variable {ag}

theorem exec_returned {α β : Type} {p : Act α} {f : α → Act β} {b : β} (h : exec S (p >>= f) w = (.ok b, w')) :
    ∃ a w₁, exec S p w = (.ok a, w₁) ∧ exec S (f a) w₁ = (.ok b, w') := by
  rcases hp : exec S p w with ⟨e | a, w₁⟩
  · rw [exec_bind_of_error S w hp] at h
    cases h
  · rw [exec_bind_of_ok S w hp] at h
    exact ⟨a, w₁, rfl, h⟩

theorem ingested_replayTurns {session : LocomoSession} {turns : List LocomoTurn} {n n' : Nat}
    (h : exec S (replayTurns ag u session turns n) w = (.ok n', w')) : n' = n + turns.length := by
  induction turns generalizing n w with
  | nil =>
    obtain ⟨hn, -⟩ := Prod.mk.inj h
    exact (Except.ok.inj hn).symm
  | cons turn turns ih =>
    obtain ⟨_, w₁, -, h⟩ := exec_returned h
    rw [ih h, List.length_cons]
    omega

theorem ingested_replaySessions {sessions : List LocomoSession} {n n' : Nat}
    (h : exec S (replaySessions ag u sessions n) w = (.ok n', w')) : n' = n + (sessions.map (·.turns.length)).sum := by
  induction sessions generalizing n w with
  | nil =>
    obtain ⟨hn, -⟩ := Prod.mk.inj h
    exact (Except.ok.inj hn).symm
  | cons session sessions ih =>
    obtain ⟨n₁, w₁, hturns, h⟩ := exec_returned h
    rw [ih h, ingested_replayTurns hturns, List.map_cons, List.sum_cons]
    omega

theorem graded_askFrom {i : Nat} {qs : List LocomoQuestion} {results : List LocomoResult}
    (h : exec S (askFrom ag u judge i qs) w = (.ok (.ok results), w')) : AllGraded u judge i qs results := by
  induction qs generalizing i w results with
  | nil =>
    obtain ⟨hr, -⟩ := Prod.mk.inj h
    exact (Except.ok.inj (Except.ok.inj hr)).symm
  | cons q qs ih =>
    obtain ⟨trace, w₁, -, h⟩ := exec_returned h
    split at h
    · cases h
    · next verdict hverdict =>
      obtain ⟨rest, w₂, hrest, h⟩ := exec_returned h
      obtain ⟨hr, rfl⟩ := Prod.mk.inj h
      cases rest with
      | error e => cases hr
      | ok rs =>
        obtain rfl := Except.ok.inj (Except.ok.inj hr)
        exact ⟨_, rs, rfl, ⟨rfl, hverdict⟩, ih hrest⟩

end One

/-! ## Conversations apart -/

section Apart
variable (settings : Settings) (recallTopK : Nat) (S : Services) (feed : LocomoConversation → Input)
  (judge : LocomoConversation → Nat → Judge) (arm : WriterName) (maxQuestions : Option Int)

/-- The conversation on a backend of its own. -/
def alone (c : LocomoConversation) : Except (Error ⊕ ValidationError) LocomoReport :=
  runLocomo settings recallTopK S feed judge [c] arm maxQuestions

def LocomoReport.sum (label : String) (reports : List LocomoReport) : LocomoReport :=
  ⟨label, reports.flatMap (·.results), (reports.map (·.turnsIngested)).sum, (reports.map (·.memoriesStored)).sum⟩

/-- A report is one with all turns ingested and every question graded. -/
structure Complete (c : LocomoConversation) (r : LocomoReport) : Prop where
  ingested : r.turnsIngested = c.turnCount
  graded : AllGraded c.sampleId (judge c) 0 (capped c.questions maxQuestions) r.results

variable {settings recallTopK S feed judge arm maxQuestions}
variable {c : LocomoConversation} {cs : List LocomoConversation} {w : World}

theorem complete_part {ag : Agent} {w' : World} {part : List LocomoResult × Nat × Nat}
    (h : exec S (conversationPart ag c (judge c) maxQuestions) w = (.ok (.ok part), w')) :
    part.2.1 = c.turnCount ∧ AllGraded c.sampleId (judge c) 0 (capped c.questions maxQuestions) part.1 := by
  obtain ⟨run, w₁, hrun, h⟩ := exec_returned h
  obtain ⟨n, w₂, hturns, hrun⟩ := exec_returned hrun
  obtain ⟨results, w₃, hasked, hrun⟩ := exec_returned hrun
  obtain ⟨hr, rfl⟩ := Prod.mk.inj hrun
  obtain rfl := Except.ok.inj hr
  cases results with
  | error e => cases h
  | ok results =>
    obtain ⟨live, w₄, -, h⟩ := exec_returned h
    obtain ⟨hr, -⟩ := Prod.mk.inj h
    obtain rfl := Except.ok.inj (Except.ok.inj hr)
    refine ⟨?_, graded_askFrom hasked⟩
    rw [ingested_replaySessions hturns, Nat.zero_add]
    rfl

/-- What one conversation adds to a report, or how it ends it. -/
theorem runFrom_cons (ag : Agent) (report : LocomoReport) : runFrom ag S feed judge maxQuestions (c :: cs) report w =
    match raised (exec S (conversationPart ag c (judge c) maxQuestions) (w.given (feed c))).1 with
    | .error e => .error e
    | .ok part => runFrom ag S feed judge maxQuestions cs (report.plus part)
        (exec S (conversationPart ag c (judge c) maxQuestions) (w.given (feed c))).2 := rfl

variable (settings recallTopK S feed judge arm maxQuestions) in
theorem alone_eq (c : LocomoConversation) : alone settings recallTopK S feed judge arm maxQuestions c =
    (raised (exec S (conversationPart (armAgent settings recallTopK arm) c (judge c) maxQuestions)
      (Backend.empty.given (feed c))).1).map (LocomoReport.plus ⟨armName arm, [], 0, 0⟩) := by
  unfold alone runLocomo
  rw [runFrom_cons]
  cases raised (exec S (conversationPart (armAgent settings recallTopK arm) c (judge c) maxQuestions)
    (Backend.empty.given (feed c))).1 <;> rfl

omit [Host] in
theorem raised_eq_ok {α : Type} {x : Except Error (Except ValidationError α)} {a : α} :
    raised x = .ok a ↔ x = .ok (.ok a) := by
  rcases x with e | e | a' <;> simp [raised]

omit [Host] in
theorem sum_plus (label : String) (report : LocomoReport) (part : List LocomoResult × Nat × Nat)
    (reports : List LocomoReport) :
    LocomoReport.sum label (report.plus part :: reports) =
      .sum label (report :: LocomoReport.plus ⟨label, [], 0, 0⟩ part :: reports) := by
  simp [LocomoReport.sum, LocomoReport.plus, Nat.add_assoc]

variable (settings recallTopK S feed judge arm maxQuestions) in
/-- On a backend with nothing of the conversations to come. -/
theorem apart_runFrom (hsha : Function.Injective Host.sha256) (hids : (cs.map (·.sampleId)).Nodup)
    (hw : ∀ c ∈ cs, Alike S (View.of c.sampleId) w Backend.empty) (report : LocomoReport) :
    match runFrom (armAgent settings recallTopK arm) S feed judge maxQuestions cs report w with
    | .ok r => ∃ reports, List.Forall₂ (fun c r => alone settings recallTopK S feed judge arm maxQuestions c = .ok r ∧
        Complete judge maxQuestions c r) cs reports ∧ r = .sum report.arm (report :: reports)
    | .error e => ∃ c ∈ cs, alone settings recallTopK S feed judge arm maxQuestions c = .error e := by
  induction cs generalizing w report with
  | nil => exact ⟨[], .nil, by simp [LocomoReport.sum]⟩
  | cons c cs ih =>
    obtain ⟨hnot, hids⟩ := List.nodup_cons.1 hids
    have honly := only_conversationPart (armAgent settings recallTopK arm) c (judge c) maxQuestions
    have hfirst := (((hw c List.mem_cons_self).given (feed c)).exec ⟨rfl, rfl⟩
      (honly.mono (fun _ hi => ⟨hi.1.reads, hi.2⟩) (fun _ => id))).1
    -- The conversation leaves the data of the others.
    have hrest : ∀ c' ∈ cs, Alike S (View.of c'.sampleId)
        (exec S (conversationPart (armAgent settings recallTopK arm) c (judge c) maxQuestions) (w.given (feed c))).2
        Backend.empty := by
      intro c' hc'
      have hne : c.sampleId ≠ c'.sampleId := fun he => hnot (List.mem_map.2 ⟨c', hc', he.symm⟩)
      have h := hw c' (List.mem_cons_of_mem _ hc')
      have hgiven : Alike S (View.of c'.sampleId) (w.given (feed c)) Backend.empty :=
        ⟨h.store, h.checkpoints, h.matched.congr (fun _ => rfl), h.matched', h.sound, h.sound'⟩
      exact hgiven.exec_left (honly.mono (fun _ hi => ⟨hi.1.avoids hsha hne, hi.2⟩) (fun _ => id))
    have halone := alone_eq settings recallTopK S feed judge arm maxQuestions c
    rw [← hfirst] at halone
    rw [runFrom_cons]
    rcases hpart : raised (exec S (conversationPart (armAgent settings recallTopK arm) c (judge c) maxQuestions)
      (w.given (feed c))).1 with e | part
    · rw [hpart] at halone
      exact ⟨c, List.mem_cons_self, halone⟩
    · rw [hpart] at halone
      obtain ⟨hingested, hgraded⟩ := complete_part (Prod.ext (raised_eq_ok.1 hpart) rfl)
      have hrun := ih hids hrest (report.plus part)
      dsimp only
      split
      · next r hr =>
        rw [hr] at hrun
        obtain ⟨reports, hall, hsum⟩ := hrun
        have hcomplete : Complete judge maxQuestions c (LocomoReport.plus ⟨armName arm, [], 0, 0⟩ part) :=
          ⟨by rw [LocomoReport.plus, hingested, Nat.zero_add], by rwa [LocomoReport.plus, List.nil_append]⟩
        refine ⟨_ :: reports, .cons ⟨halone, hcomplete⟩ hall, ?_⟩
        rw [hsum, sum_plus]
        rfl
      · next e he =>
        rw [he] at hrun
        obtain ⟨c', hc', halone'⟩ := hrun
        exact ⟨c', List.mem_cons_of_mem _ hc', halone'⟩

/-- The conversations of a file with different sample ids do not influence one
another: the report is the sum of what each comes to alone, all its turns ingested
and a result for each question asked, in order; and if the run fails, one of them
fails alone. -/
theorem conversations_apart (hsha : Function.Injective Host.sha256) (settings : Settings) (recallTopK : Nat)
    (S : Services) (feed : LocomoConversation → Input) (judge : LocomoConversation → Nat → Judge) (arm : WriterName)
    (maxQuestions : Option Int) {conversations : List LocomoConversation}
    (hids : (conversations.map (·.sampleId)).Nodup) :
    match runLocomo settings recallTopK S feed judge conversations arm maxQuestions with
    | .ok r => ∃ reports, List.Forall₂ (fun c r => alone settings recallTopK S feed judge arm maxQuestions c = .ok r ∧
        Complete judge maxQuestions c r) conversations reports ∧ r = .sum (armName arm) reports
    | .error e => ∃ c ∈ conversations, alone settings recallTopK S feed judge arm maxQuestions c = .error e := by
  have hrun := apart_runFrom settings recallTopK S feed judge arm maxQuestions hsha hids
    (fun c _ => .refl S _ matched_empty (sound_empty S)) ⟨armName arm, [], 0, 0⟩
  unfold runLocomo
  split
  · next r hr =>
    rw [hr] at hrun
    obtain ⟨reports, hall, hsum⟩ := hrun
    exact ⟨reports, hall, by simpa [LocomoReport.sum] using hsum⟩
  · next e he =>
    rw [he] at hrun
    exact hrun

end Apart

/-! ## What the model is asked -/

/-- The loop makes a call for a conversation, in the state `w'`. -/
inductive LoopMakes (S : Services) (ag : Agent) (feed : LocomoConversation → Input)
    (judge : LocomoConversation → Nat → Judge)
    (maxQuestions : Option Int) : List LocomoConversation → World → LocomoConversation → Call → World → Prop
  | here {c cs w i w'} : Prog.Makes (handle S) (conversationPart ag c (judge c) maxQuestions) (w.given (feed c)) i w' →
      LoopMakes S ag feed judge maxQuestions (c :: cs) w c i w'
  | later {c cs w part w₁ c' i w'} : exec S (conversationPart ag c (judge c) maxQuestions) (w.given (feed c)) =
    (.ok (.ok part), w₁) →
      LoopMakes S ag feed judge maxQuestions cs w₁ c' i w' → LoopMakes S ag feed judge maxQuestions (c :: cs) w c' i w'

/-- A question, with a few memories of `u` and nothing else. -/
def Posed (ag : Agent) (u : String) (qs : List LocomoQuestion) (w : World) (prompt : List Message) : Prop :=
  ∃ q ∈ qs, ∃ recalled, prompt = Agent.prompt recalled [⟨.human, some q.question⟩] ∧ recalled.length ≤ ag.reader.topK ∧
    ∀ r ∈ recalled, ∃ key, (w.mem u).get key = some r.memory

/-- Nothing was said on the threads of the questions from position `i` on. -/
structure Unasked (u : String) (i : Nat) (w : World) : Prop where
  canonical : w.Canonical
  transcript : ∀ j, i ≤ j → w.transcript u (questionThread u j) = []

/-- The conversations of the other users are as in `w`. -/
structure OthersTalk (u : String) (w w' : World) : Prop where
  canonical : w'.Canonical
  transcript : ∀ v, v ≠ u → ∀ t, w'.transcript v t = w.transcript v t

section Asked
variable {S : Services} {ag : Agent} {u : String} {judge : Nat → Judge} {w w' : World}

omit [Host] in
theorem questionThread_inj {i j : Nat} (h : questionThread u i = questionThread u j) : i = j := by
  have hlist := congrArg String.toList h
  simp only [questionThread, String.toList_append, List.append_cancel_left_eq, Nat.toString_eq_ofList_toDigits,
    String.toList_ofList] at hlist
  have hback := congrArg (Nat.ofDigitChars 10 · 0) hlist
  simpa using hback

/-- Neither the model nor a conversation is touched. -/
def Aside (i : Call) : Prop := Mute i ∧ Unspoken i

theorem aside_replaySessions (sessions : List LocomoSession) (n : Nat) :
    (replaySessions ag u sessions n).Only (fun _ _ => True) Aside (fun _ => True) := by
  have hturns : ∀ (session : LocomoSession) (turns : List LocomoTurn) (n : Nat),
      (replayTurns ag u session turns n).Only (fun _ _ => True) Aside (fun _ => True) := by
    intro session turns
    induction turns with
    | nil => exact fun _ => .pure trivial
    | cons turn turns ih =>
      refine fun n => .seq (R := fun _ => True) ?_ (fun _ _ => ih (n + 1))
      exact (only_writer (aside_writes u (some session.key)) ag.writer _ .user).mono (fun _ h => h) (fun _ _ => trivial)
  induction sessions generalizing n with
  | nil => exact .pure trivial
  | cons session sessions ih => exact .seq (hturns session session.turns n) (fun n _ => ih n)

theorem aside_liveMemories (u : String) : (Eval.liveMemories u).Only (fun _ _ => True) Aside (fun _ => True) := by
  have hclock : Aside .utcnow := ⟨trivial, by simp [Unspoken]⟩
  refine .seq (R := fun _ => True) ?_ (fun ms _ => (only_activeOnly hclock ms).mono (fun _ => id) (fun _ _ => trivial))
  exact only_storeSearch ⟨trivial, by simp [Unspoken]⟩ (fun _ _ => .pure trivial)

theorem along_aside {α : Type} {R : α → Prop} {p : Act α} (hp : p.Only (fun _ _ => True) Aside R)
    (told : World → List Message → Prop) : p.Along (handle S) (Asks told) (fun _ w' => SameTalk w w') w :=
  (Prog.Along.of_only hp (fun _ _ hi h => ⟨hi.2.asks, h.trans (mute_handle S hi.1)⟩) (.refl w)).mono (fun _ _ h => h.2)

/-- Each question meets an empty thread. -/
theorem along_askFrom (hsha : Function.Injective Host.sha256) {i : Nat} {qs all : List LocomoQuestion} (hall : qs ⊆ all)
    (hw : Unasked u i w) :
    (askFrom ag u judge i qs).Along (handle S) (Asks (Posed ag u all)) (fun _ w' => OthersTalk u w w') w := by
  induction qs generalizing i w with
  | nil => exact .pure ⟨hw.canonical, fun _ _ _ => rfl⟩
  | cons q qs ih =>
    obtain ⟨hq, hqs⟩ := List.cons_subset.1 hall
    obtain ⟨hcanonical, hleaves⟩ := chat_leaves hsha ag S u (questionThread u i) q.question hw.canonical
    have hothers : ∀ {w'}, OthersTalk u (exec S (ag.chat u (questionThread u i) q.question) w).2 w' →
        OthersTalk u w w' := by
      refine fun h => ⟨h.canonical, fun v hv t => (h.transcript v hv t).trans (hleaves v t ?_)⟩
      rintro he
      exact hv (Prod.mk.inj he).1
    refine .seq ((asks_chat S ag hw.canonical q.question).allowed ?_) (fun trace w₁ hchat => ?_)
    · rintro w' call hasks prompt rfl
      obtain ⟨⟨recalled, hrecalled, -, rfl⟩, hmem⟩ := hasks prompt rfl
      refine ⟨q, hq, recalled, ?_, hrecalled.few, fun r hr => hmem ▸ hrecalled.stored r hr⟩
      rw [heard, hw.transcript i (Nat.le_refl i), List.nil_append]
    · have hw₁ : (exec S (ag.chat u (questionThread u i) q.question) w).2 = w₁ := by rw [hchat]
      rw [hw₁] at hcanonical hleaves hothers
      split
      · exact .pure (hothers ⟨hcanonical, fun _ _ _ => rfl⟩)
      · have hnext : Unasked u (i + 1) w₁ := by
          refine ⟨hcanonical, fun j hj => ?_⟩
          rw [hleaves, hw.transcript j (by omega)]
          intro he
          have := questionThread_inj (Prod.mk.inj he).2
          omega
        exact .seq (ih hqs hnext) (fun _ _ h => .pure (hothers h))

variable (judge) in
theorem along_conversationPart (hsha : Function.Injective Host.sha256) (c : LocomoConversation)
    (maxQuestions : Option Int) (hw : Unasked c.sampleId 0 w) :
    (conversationPart ag c judge maxQuestions).Along (handle S)
      (Asks (Posed ag c.sampleId (capped c.questions maxQuestions))) (fun _ w' => OthersTalk c.sampleId w w') w := by
  have hthen : ∀ {w₁ w₂}, OthersTalk c.sampleId w w₁ → SameTalk w₁ w₂ → OthersTalk c.sampleId w w₂ :=
    fun h hs => ⟨hs.canonical h.canonical, fun v hv t => (hs.transcript v t).trans (h.transcript v hv t)⟩
  refine .seq (R := fun _ w' => OthersTalk c.sampleId w w') ?_ (fun part w₁ hothers => ?_)
  · refine .seq (along_aside (aside_replaySessions c.sessions 0) _) (fun n w₁ hs => ?_)
    have hw₁ : Unasked c.sampleId 0 w₁ :=
      ⟨hs.canonical hw.canonical, fun j hj => (hs.transcript _ _).trans (hw.transcript j hj)⟩
    refine .seq (along_askFrom hsha (List.Subset.refl _) hw₁) (fun results w₂ hasked => .pure ?_)
    exact ⟨hasked.canonical, fun v hv t => (hasked.transcript v hv t).trans (hs.transcript v t)⟩
  · split
    · exact .pure hothers
    · exact .seq (along_aside (aside_liveMemories c.sampleId) _) (fun _ w₂ hs => .pure (hthen hothers hs))

variable {feed : LocomoConversation → Input} {judges : LocomoConversation → Nat → Judge} {maxQuestions : Option Int}
variable {cs : List LocomoConversation} {c : LocomoConversation} {i : Call}

theorem loop_asks (hsha : Function.Injective Host.sha256) (hids : (cs.map (·.sampleId)).Nodup) (hc : w.Canonical)
    (hw : ∀ c ∈ cs, ∀ t, w.transcript c.sampleId t = []) (h : LoopMakes S ag feed judges maxQuestions cs w c i w') :
    Asks (Posed ag c.sampleId (capped c.questions maxQuestions)) w' i := by
  have hunasked : ∀ {c : LocomoConversation} {cs : List LocomoConversation} {w : World},
    (∀ c' ∈ c :: cs, ∀ t, w.transcript c'.sampleId t = []) →
      w.Canonical → Unasked c.sampleId 0 (w.given (feed c)) :=
    fun hw hc => ⟨hc, fun _ _ => hw _ List.mem_cons_self _⟩
  induction h with
  | here hmakes => exact (along_conversationPart _ hsha _ _ (hunasked hw hc)).makes hmakes
  | @later c cs w part w₁ c' i w' hpart _ ih =>
    obtain ⟨hnot, hids⟩ := List.nodup_cons.1 hids
    have hothers := (along_conversationPart (judges c) hsha c maxQuestions (hunasked hw hc)).run hpart
    refine ih hids hothers.canonical (fun c' hc' t => ?_)
    have hne : c'.sampleId ≠ c.sampleId := fun he => hnot (List.mem_map.2 ⟨c', hc', he⟩)
    exact (hothers.transcript _ hne t).trans (hw c' (List.mem_cons_of_mem _ hc') t)

end Asked

/-- Over a whole run of the benchmark the model is put one question at a time, as if
it were the first thing said, with a few memories of its conversation: no earlier
question or answer comes along through the transcript. -/
theorem questions_apart (hsha : Function.Injective Host.sha256) {settings : Settings} {recallTopK : Nat} {S : Services}
    {feed : LocomoConversation → Input} {judge : LocomoConversation → Nat → Judge} {arm : WriterName}
    {maxQuestions : Option Int} {conversations : List LocomoConversation}
    (hids : (conversations.map (·.sampleId)).Nodup) {c : LocomoConversation} {prompt : List Message} {w' : World}
    (h : LoopMakes S (armAgent settings recallTopK arm) feed judge maxQuestions conversations Backend.empty c
      (.invoke prompt) w') :
    ∃ q ∈ capped c.questions maxQuestions, ∃ recalled, prompt = Agent.prompt recalled [⟨.human, some q.question⟩] ∧
      recalled.length ≤ recallTopK ∧ ∀ r ∈ recalled, ∃ key, (w'.mem c.sampleId).get key = some r.memory :=
  loop_asks hsha hids accounted_empty.canonical (fun _ _ _ => rfl) h prompt rfl

/-! ## What the naive arm keeps -/

omit [Host] in
theorem strip_ne_empty {s : String} {c : Char} (hc : c ∈ s.toList) (hs : ¬ isSpace c) : strip s ≠ "" := by
  intro h
  have hnil : (s.toList.dropWhile isSpace).reverse.dropWhile isSpace = [] := by
    have hlist := congrArg String.toList h
    simpa [strip] using hlist
  rw [List.dropWhile_eq_nil_iff] at hnil
  rw [← List.takeWhile_append_dropWhile (p := isSpace) (l := s.toList), List.mem_append] at hc
  rcases hc with hc | hc
  · exact hs (List.mem_takeWhile_imp hc)
  · exact hs (hnil c (List.mem_reverse.2 hc))

omit [Host] in
/-- With its speaker no turn is blank. -/
theorem rendered_ne (t : LocomoTurn) (dateTime : String) : strip (t.rendered dateTime) ≠ "" := by
  refine strip_ne_empty (c := ':') ?_ (by decide)
  simp [LocomoTurn.rendered]

section Naive
variable {S : Services} {ag : Agent} {u : String} {judge : Nat → Judge} {w w' : World}

/-- The judge does not raise. -/
def Judge.Returns (judge : Nat → Judge) : Prop := ∀ i question gold answer, ∃ v, judge i question gold answer = .ok v

omit [Host] in
theorem Judge.Returns.scored [Host] (hj : Judge.Returns judge) (i : Nat) (q : LocomoQuestion) (answer : String) :
    ∃ v, scoreLocomoAnswer q answer (judge i) = .ok v := by
  unfold scoreLocomoAnswer
  split
  · split <;> exact ⟨_, rfl⟩
  · exact hj i _ _ _

theorem askFrom_ok (hj : Judge.Returns judge) {i : Nat} {qs : List LocomoQuestion}
    {x : Except ValidationError (List LocomoResult)} (h : exec S (askFrom ag u judge i qs) w = (.ok x, w')) :
    ∃ results, x = .ok results := by
  induction qs generalizing i w w' x with
  | nil =>
    obtain ⟨hx, -⟩ := Prod.mk.inj h
    exact ⟨[], (Except.ok.inj hx).symm⟩
  | cons q qs ih =>
    obtain ⟨trace, w₁, -, h⟩ := exec_returned h
    obtain ⟨v, hv⟩ := hj.scored i q trace.reply
    rw [hv] at h
    obtain ⟨rest, w₂, hrest, h⟩ := exec_returned h
    obtain ⟨results, rfl⟩ := ih hrest
    obtain ⟨hx, -⟩ := Prod.mk.inj h
    exact ⟨_, (Except.ok.inj hx).symm⟩

variable (hnaive : ag.writer = .naive)
include hnaive

theorem adds_replayTurns (hw : Eval.Ready w) (session : LocomoSession) (turns : List LocomoTurn) (n : Nat) :
    Eval.Adds S u turns.length (replayTurns ag u session turns n) w := by
  induction turns generalizing n w with
  | nil => exact .pure hw _
  | cons turn turns ih =>
    have hsaid : Eval.said [turn.rendered session.dateTime] = 1 := by
      simp [Eval.said, rendered_ne]
    rw [List.length_cons, Nat.add_comm, ← hsaid]
    refine Eval.Adds.bind ?_ (fun _ w hw => ih hw (n + 1))
    rw [Agent.observe, hnaive]
    exact Eval.adds_naiveApply hw _ _ _

theorem adds_replaySessions (hw : Eval.Ready w) (sessions : List LocomoSession) (n : Nat) :
    Eval.Adds S u (sessions.map (·.turns.length)).sum (replaySessions ag u sessions n) w := by
  induction sessions generalizing n w with
  | nil => exact .pure hw _
  | cons session sessions ih =>
    rw [List.map_cons, List.sum_cons]
    exact (adds_replayTurns hnaive hw session session.turns n).bind (fun n w hw => ih hw n)

variable (hmem : ag.memory = true)
include hmem

theorem adds_askFrom (hj : Judge.Returns judge) (hw : Eval.Ready w) (i : Nat) (qs : List LocomoQuestion) :
    Eval.Adds S u (Eval.said (qs.map (·.question))) (askFrom ag u judge i qs) w := by
  induction qs generalizing i w with
  | nil => exact .pure hw _
  | cons q qs ih =>
    rw [List.map_cons, ← List.singleton_append, Eval.said, List.countP_append]
    refine (Eval.adds_chat hmem hnaive hw _ q.question).bind (fun trace w hw => ?_)
    obtain ⟨v, hv⟩ := hj.scored i q trace.reply
    rw [hv]
    exact (ih hw (i + 1)).before (fun _ w hw => .pure hw _)

/-- What is live after a conversation are its turns and the questions that were asked. -/
theorem exec_conversationPart_naive (hj : Judge.Returns judge) (hw : Eval.Ready w) (c : LocomoConversation)
    (maxQuestions : Option Int) : ∃ results w', exec S (conversationPart ag c judge maxQuestions) w =
      (.ok (.ok (results, c.turnCount, min 1000 ((w.mem c.sampleId).size +
        (c.turnCount + Eval.said ((capped c.questions maxQuestions).map (·.question)))))), w') := by
  obtain ⟨n, w₁, hturns, hadd₁⟩ := adds_replaySessions (S := S) (u := c.sampleId) hnaive hw c.sessions 0
  obtain ⟨x, w₂, hasked, hadd₂⟩ := adds_askFrom (S := S) (u := c.sampleId) hnaive hmem hj hadd₁.ready 0
    (capped c.questions maxQuestions)
  obtain ⟨results, rfl⟩ := askFrom_ok hj hasked
  obtain ⟨ms, hlive, hlen⟩ := Eval.exec_liveMemories (S := S) hadd₂.ready c.sampleId
  have hn : n = c.turnCount := by
    rw [ingested_replaySessions hturns, Nat.zero_add]
    rfl
  have hadd := hadd₁.trans hadd₂
  have hrun : exec S (runConversation ag c judge maxQuestions) w = (.ok (.ok (results, n)), w₂) := by
    rw [runConversation, exec_bind_of_ok S w hturns, exec_bind_of_ok S w₁ hasked, exec_pure]
    rfl
  refine ⟨results, w₂, ?_⟩
  rw [conversationPart, exec_bind_of_ok S w hrun]
  dsimp only
  rw [exec_bind_of_ok S w₂ hlive, exec_pure, hlen, hadd.size, hn]
  rfl

end Naive

/-- On the naive arm, with a judge that does not raise and a backend whose calls
succeed, the run returns, and keeps all it is given up to 1000 a conversation, the
questions too: not only what was ingested counts as stored. -/
theorem naive_conversations (hsha : Function.Injective Host.sha256) (settings : Settings) (recallTopK : Nat)
    (S : Services) {feed : LocomoConversation → Input} {judge : LocomoConversation → Nat → Judge}
    (maxQuestions : Option Int) {conversations : List LocomoConversation}
    (hids : (conversations.map (·.sampleId)).Nodup) (hnew : ∀ c, Function.Injective (feed c).ids)
    (hjudge : ∀ c, Judge.Returns (judge c)) :
    ∃ r, runLocomo settings recallTopK S feed judge conversations .naive maxQuestions = .ok r ∧
      r.turnsIngested = (conversations.map LocomoConversation.turnCount).sum ∧
      r.memoriesStored = (conversations.map (fun c => min 1000
        (c.turnCount + Eval.said ((capped c.questions maxQuestions).map (·.question))))).sum := by
  have halone : ∀ c, ∃ results, alone settings recallTopK S feed judge .naive maxQuestions c =
    .ok ⟨"naive", results, c.turnCount,
      min 1000 (c.turnCount + Eval.said ((capped c.questions maxQuestions).map (·.question)))⟩ := by
    intro c
    have hnaive : (armAgent settings recallTopK .naive).writer = .naive := rfl
    obtain ⟨results, w', hrun⟩ :=
      exec_conversationPart_naive (S := S) hnaive rfl (hjudge c) (Eval.ready_empty (hnew c)) c
      maxQuestions
    refine ⟨results, ?_⟩
    rw [alone_eq, hrun, show ((Backend.empty.given (feed c)).mem c.sampleId).size = 0 from rfl, Nat.zero_add]
    simp [raised, Except.map, LocomoReport.plus, armName]
  have hrun := apart_runFrom settings recallTopK S feed judge .naive maxQuestions hsha hids
    (fun c _ => .refl S _ matched_empty (sound_empty S)) ⟨"naive", [], 0, 0⟩
  unfold runLocomo
  rw [armName]
  split at hrun
  · next r hr =>
    obtain ⟨reports, hall, rfl⟩ := hrun
    have hparts : ∀ c r, alone settings recallTopK S feed judge .naive maxQuestions c = .ok r →
      c.turnCount = r.turnsIngested ∧
        min 1000 (c.turnCount + Eval.said ((capped c.questions maxQuestions).map (·.question))) = r.memoriesStored := by
      intro c r hc
      obtain ⟨results, hok⟩ := halone c
      obtain rfl := Except.ok.inj (hok.symm.trans hc)
      exact ⟨rfl, rfl⟩
    refine ⟨_, hr, ?_, ?_⟩
    · rw [map_eq_map hall (fun c r h => (hparts c r h.1).1)]
      simp [LocomoReport.sum]
    · rw [map_eq_map hall (fun c r h => (hparts c r h.1).2)]
      simp [LocomoReport.sum]
  · next e he =>
    obtain ⟨c, -, he⟩ := hrun
    obtain ⟨results, hok⟩ := halone c
    rw [hok] at he
    cases he

end Engram.Locomo

/-! ## Two conversations -/

namespace Engram.Locomo

open Backend

attribute [local instance] ascii

def copyRead : LocomoConversation := { sampleRead with sampleId := "conversation-1" }

/-- Both conversations are fed the same ids. -/
theorem conversations_apart_copy : ∃ r reports,
    runLocomo {} 5 teamBackend (fun _ => .at 1 'a') (fun _ _ => SubstringJudge.score)
      [sampleRead, copyRead] .manager none = .ok r ∧
      reports.length = 2 ∧ r = .sum "manager" reports := by
  have hids : ([sampleRead, copyRead].map (·.sampleId)).Nodup := by decide
  have happart := conversations_apart digest_injective {} 5 teamBackend (fun _ => .at 1 'a')
    (fun _ _ => SubstringJudge.score) .manager none hids
  have hok : (runLocomo {} 5 teamBackend (fun _ => .at 1 'a') (fun _ _ => SubstringJudge.score)
    [sampleRead, copyRead] .manager none).toOption.isSome := by decide +kernel
  split at happart
  · next r hr =>
    obtain ⟨reports, hall, hsum⟩ := happart
    exact ⟨r, reports, hr, hall.length_eq.symm, hsum⟩
  · next e he =>
    rw [he] at hok
    cases hok

/-- The question of the second conversation comes after that of the first. -/
theorem questions_apart_copy : ∃ prompt recalled w',
    LoopMakes teamBackend (armAgent {} 5 .naive) (fun _ => .at 1 'a') (fun _ _ => SubstringJudge.score) none
      [sampleRead, copyRead] Backend.empty copyRead (.invoke prompt) w' ∧
    prompt = Agent.prompt recalled [⟨.human, some "Who left?"⟩] ∧ recalled.length ≤ 5 := by
  have hfirst : ∃ part, (exec teamBackend
      (conversationPart (armAgent {} 5 .naive) sampleRead (fun _ => SubstringJudge.score) none)
      (Backend.empty.given (.at 1 'a'))).1 = .ok (.ok part) := by
    have hnaive : (armAgent {} 5 .naive).writer = .naive := rfl
    have hjudge : Judge.Returns (fun _ => SubstringJudge.score) := fun _ _ _ _ => ⟨_, rfl⟩
    obtain ⟨results, w₁, hrun⟩ :=
      exec_conversationPart_naive (S := teamBackend) hnaive rfl hjudge (Eval.ready_empty (Input.at_inj 1 'a'))
      sampleRead none
    exact ⟨_, congrArg Prod.fst hrun⟩
  obtain ⟨part, hfirst⟩ := hfirst
  have hmakes : ∃ prompt w', LoopMakes teamBackend (armAgent {} 5 .naive) (fun _ => .at 1 'a')
    (fun _ _ => SubstringJudge.score) none [sampleRead, copyRead] Backend.empty copyRead (.invoke prompt) w' :=
    ⟨_, _, .later (Prod.ext hfirst rfl) (.here (.later (.later (.later (.later (.later (.later (.later (.later
      (.later (.later (.later (.later (.later (.later (.later (.later .here)))))))))))))))))⟩
  obtain ⟨prompt, w', hmakes⟩ := hmakes
  obtain ⟨q, hq, recalled, hprompt, hfew, -⟩ := questions_apart digest_injective (by decide) hmakes
  obtain rfl := List.mem_singleton.1 hq
  exact ⟨prompt, recalled, w', hmakes, hprompt, hfew⟩

/-- Of each, two turns and one question. -/
theorem naive_conversations_copy : ∃ r,
    runLocomo {} 5 teamBackend (fun _ => .at 1 'a') (fun _ _ => SubstringJudge.score)
      [sampleRead, copyRead] .naive none = .ok r ∧
      r.turnsIngested = 4 ∧ r.memoriesStored = 6 := by
  have hids : ([sampleRead, copyRead].map (·.sampleId)).Nodup := by decide
  obtain ⟨r, hr, hturns, hstored⟩ := naive_conversations digest_injective {} 5 teamBackend none hids
    (fun _ => Input.at_inj 1 'a') (fun _ _ _ _ _ => ⟨_, rfl⟩)
  have hsaid : Eval.said ((capped sampleRead.questions none).map (·.question)) = 1 := by decide +kernel
  refine ⟨r, hr, hturns, ?_⟩
  rw [hstored]
  simp [copyRead, hsaid]
  rfl

end Engram.Locomo
