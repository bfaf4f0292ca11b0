import Engram.Eval
import Engram.Structured
import Engram.Lib.Fallible
import Engram.Lib.Ranking
/-!
# LoCoMo

`locomo.py` and the offline judge of `judge.py`, without the accuracies of a
report, its table and the command line. The file is read as JSON values; what
`str` and `int` make of values that are not strings and integers is a parameter.
-/

namespace Engram.Locomo

open Text Fallible

/-! ## The dataset -/

structure LocomoTurn where
  speaker : String
  diaId : String
  text : String
  deriving DecidableEq

/-- With its speaker, and with the date of its session. -/
def LocomoTurn.rendered (t : LocomoTurn) (dateTime : String) : String :=
  let stamp := if dateTime ≠ "" then "[" ++ dateTime ++ "] " else ""
  stamp ++ t.speaker ++ ": " ++ t.text

structure LocomoSession where
  key : String
  dateTime : String
  turns : List LocomoTurn
  deriving DecidableEq

structure LocomoQuestion where
  question : String
  answer : String
  distractor : String
  category : Int
  evidence : List String
  deriving DecidableEq

def adversarialCategory : Int := 5

def LocomoQuestion.isAdversarial (q : LocomoQuestion) : Bool := q.category = adversarialCategory

structure LocomoConversation where
  sampleId : String
  speakerA : String
  speakerB : String
  sessions : List LocomoSession
  questions : List LocomoQuestion
  deriving DecidableEq

def LocomoConversation.turnCount (c : LocomoConversation) : Nat := (c.sessions.map (·.turns.length)).sum

/-! ## Parsing -/

/-- A value of `json.loads`. -/
inductive Raw where
  | null
  | bool (b : Bool)
  | int (n : Int)
  | float (q : Rat)
  | str (s : String)
  | arr (items : List Raw)
  | obj (fields : List (String × Raw))

inductive PyError where
  | attributeError | typeError | keyError | valueError
  deriving DecidableEq

/-- `str`, `int` and the values of the characters `\d`. -/
structure Builtins where
  str : Raw → String
  int : Raw → Except PyError Int
  digit : Char → Option Nat
  str_str : ∀ s, str (.str s) = s
  int_int : ∀ n, int (.int n) = .ok n

namespace Raw

/-- `r.get(name, default)`. -/
def get : Raw → String → Raw → Except PyError Raw
  | obj fields, name, default => .ok ((fields.lookup name).getD default)
  | _, _, _ => .error .attributeError

/-- `r[name]`. -/
def item : Raw → String → Except PyError Raw
  | obj fields, name => match fields.lookup name with
    | some r => .ok r
    | none => .error .keyError
  | _, _ => .error .typeError

/-- `for x in r`. -/
def iter : Raw → Except PyError (List Raw)
  | arr items => .ok items
  | obj fields => .ok (fields.map (fun f => .str f.1))
  | str s => .ok (s.toList.map (fun c => .str c.toString))
  | _ => .error .typeError

/-- `bool(r)`. -/
def truthy : Raw → Bool
  | null => false
  | bool b => b
  | int n => n ≠ 0
  | float q => q ≠ 0
  | str s => s ≠ ""
  | arr items => items ≠ []
  | obj fields => fields ≠ []

end Raw

section Parse
variable (py : Builtins)

/-- The first run of digits, as a number. -/
def sessionSortKey (key : String) : Nat :=
  let digits := (key.toList.dropWhile (fun c => (py.digit c).isNone)).takeWhile (fun c => (py.digit c).isSome)
  digits.foldl (fun n c => 10 * n + (py.digit c).getD 0) 0

def isSessionKey (key : String) : Bool := startswith key "session_" && !Eval.contains "date_time" key

/-- `sorted(..., key=_session_sort_key)`. -/
def sessionKeys (keys : List String) : List String :=
  Ranking.ranked (fun key => OrderDual.toDual (sessionSortKey py key)) (keys.filter isSessionKey)

def field (r : Raw) (name : String) : Except PyError String := do
  let value ← r.get name (.str "")
  return py.str value

/-- Turns without text are dropped. -/
def parseTurns : List Raw → Except PyError (List LocomoTurn)
  | [] => .ok []
  | t :: ts => do
    let text ← field py t "text"
    if strip text = "" then parseTurns ts
    else do
      let speaker ← field py t "speaker"
      let diaId ← field py t "dia_id"
      let turns ← parseTurns ts
      return ⟨speaker, diaId, text⟩ :: turns

def parseSession (conversation : Raw) (key : String) : Except PyError LocomoSession := do
  let dateTime ← field py conversation (key ++ "_date_time")
  let items ← conversation.item key
  let items ← items.iter
  let turns ← parseTurns py items
  return ⟨key, dateTime, turns⟩

def parseQuestion (item : Raw) : Except PyError LocomoQuestion := do
  let category ← item.get "category" (.int 0)
  let category ← py.int category
  let question ← field py item "question"
  let answer ← (if category = adversarialCategory then .ok "" else field py item "answer")
  -- For an adversarial question this is the trap, not the gold answer.
  let distractor ← (if category = adversarialCategory then field py item "adversarial_answer" else .ok "")
  let evidence ← item.get "evidence" (.arr [])
  let evidence ← evidence.iter
  return ⟨question, answer, distractor, category, evidence.map py.str⟩

/-- The keys of an object; `k.startswith` fails on what is not a string. -/
def keysOf (conversation : Raw) : Except PyError (List String) := do
  let keys ← conversation.iter
  keys.mapM (fun
    | .str key => .ok key
    | _ => .error .attributeError)

def parseConversation (raw : Raw) (index : Nat) : Except PyError LocomoConversation := do
  let conversation ← raw.get "conversation" (.obj [])
  let keys ← keysOf conversation
  let sessions ← (sessionKeys py keys).mapM (parseSession py conversation)
  let qa ← raw.get "qa" (.arr [])
  let qa ← qa.iter
  let questions ← qa.mapM (parseQuestion py)
  let sampleId ← raw.get "sample_id" .null
  let speakerA ← field py conversation "speaker_a"
  let speakerB ← field py conversation "speaker_b"
  return ⟨if sampleId.truthy then py.str sampleId else "conversation-" ++ toString index, speakerA,
    speakerB, sessions, questions⟩

end Parse

/-! ## What is read -/

section Reads
variable (py : Builtins)

/-- A turn has the fields of its item. -/
structure LocomoTurn.Reads (item : Raw) (t : LocomoTurn) : Prop where
  speaker : field py item "speaker" = .ok t.speaker
  diaId : field py item "dia_id" = .ok t.diaId
  text : field py item "text" = .ok t.text

def hasText (item : Raw) : Bool :=
  match field py item "text" with
  | .ok text => strip text ≠ ""
  | .error _ => false

/-- The items of a list, each with a text, and the turns of those whose text is not blank. -/
def ReadTurns (items : List Raw) (turns : List LocomoTurn) : Prop :=
  (∀ item ∈ items, ∃ text, field py item "text" = .ok text) ∧
    List.Forall₂ (LocomoTurn.Reads py) (items.filter (hasText py)) turns

/-- A session has its date and the turns of the file that have text, in their order. -/
structure LocomoSession.Reads (conversation : Raw) (s : LocomoSession) : Prop where
  dateTime : field py conversation (s.key ++ "_date_time") = .ok s.dateTime
  turns : ∃ items, (conversation.item s.key >>= Raw.iter) = .ok items ∧ ReadTurns py items s.turns

/-- The answer of an adversarial question is its trap, and it has no gold answer. -/
structure LocomoQuestion.Reads (item : Raw) (q : LocomoQuestion) : Prop where
  category : (item.get "category" (.int 0) >>= py.int) = .ok q.category
  question : field py item "question" = .ok q.question
  answer : if q.isAdversarial then q.answer = "" ∧ field py item "adversarial_answer" = .ok q.distractor
    else field py item "answer" = .ok q.answer ∧ q.distractor = ""
  evidence : ∃ evidence, (item.get "evidence" (.arr []) >>= Raw.iter) = .ok evidence ∧ q.evidence = evidence.map py.str

variable {py} {conversation item : Raw} {key : String} {s : LocomoSession} {q : LocomoQuestion}

theorem parseTurns_reads {items : List Raw} {turns : List LocomoTurn} (h : parseTurns py items = .ok turns) :
    ReadTurns py items turns := by
  induction items generalizing turns with
  | nil =>
    cases h
    exact ⟨by simp, .nil⟩
  | cons t ts ih =>
    obtain ⟨text, htext, h⟩ := bind_eq_ok.1 h
    by_cases hblank : strip text = ""
    · rw [if_pos hblank] at h
      obtain ⟨hall, hturns⟩ := ih h
      have hnot : ¬ hasText py t := by simp [hasText, htext, hblank]
      refine ⟨List.forall_mem_cons.2 ⟨⟨text, htext⟩, hall⟩, ?_⟩
      rwa [List.filter_cons_of_neg hnot]
    · rw [if_neg hblank] at h
      obtain ⟨speaker, hspeaker, h⟩ := bind_eq_ok.1 h
      obtain ⟨diaId, hdiaId, h⟩ := bind_eq_ok.1 h
      obtain ⟨rest, hrest, h⟩ := bind_eq_ok.1 h
      obtain rfl := pure_eq_ok.1 h
      obtain ⟨hall, hturns⟩ := ih hrest
      have hhas : hasText py t := by simp [hasText, htext, hblank]
      refine ⟨List.forall_mem_cons.2 ⟨⟨text, htext⟩, hall⟩, ?_⟩
      rw [List.filter_cons_of_pos hhas]
      exact .cons ⟨hspeaker, hdiaId, htext⟩ hturns

theorem parseSession_reads (h : parseSession py conversation key = .ok s) : s.key = key ∧ s.Reads py conversation := by
  obtain ⟨dateTime, hdate, h⟩ := bind_eq_ok.1 h
  obtain ⟨value, hvalue, h⟩ := bind_eq_ok.1 h
  obtain ⟨items, hitems, h⟩ := bind_eq_ok.1 h
  obtain ⟨turns, hturns, h⟩ := bind_eq_ok.1 h
  obtain rfl := pure_eq_ok.1 h
  exact ⟨rfl, hdate, items, bind_eq_ok.2 ⟨value, hvalue, hitems⟩, parseTurns_reads hturns⟩

theorem parseQuestion_reads (h : parseQuestion py item = .ok q) : q.Reads py item := by
  obtain ⟨value, hvalue, h⟩ := bind_eq_ok.1 h
  obtain ⟨category, hcategory, h⟩ := bind_eq_ok.1 h
  obtain ⟨question, hquestion, h⟩ := bind_eq_ok.1 h
  obtain ⟨answer, hanswer, h⟩ := bind_eq_ok.1 h
  obtain ⟨distractor, hdistractor, h⟩ := bind_eq_ok.1 h
  obtain ⟨value', hvalue', h⟩ := bind_eq_ok.1 h
  obtain ⟨evidence, hevidence, h⟩ := bind_eq_ok.1 h
  obtain rfl := pure_eq_ok.1 h
  refine ⟨bind_eq_ok.2 ⟨value, hvalue, hcategory⟩, hquestion, ?_, evidence,
    bind_eq_ok.2 ⟨value', hvalue', hevidence⟩, rfl⟩
  by_cases hadversarial : category = adversarialCategory
  · rw [if_pos hadversarial] at hanswer hdistractor
    rw [if_pos (by simp [LocomoQuestion.isAdversarial, hadversarial])]
    exact ⟨(Except.ok.inj hanswer).symm, hdistractor⟩
  · rw [if_neg hadversarial] at hanswer hdistractor
    rw [if_neg (by simp [LocomoQuestion.isAdversarial, hadversarial])]
    exact ⟨hanswer, (Except.ok.inj hdistractor).symm⟩

/-- A conversation that is read has the sessions of the file by their numbers, those
of one number in the order of the file, each with its date and its turns that have
text; and its questions one by one, no trap taken for a gold answer. -/
theorem parse_conversation {raw : Raw} {index : Nat} {c : LocomoConversation}
    (h : parseConversation py raw index = .ok c) :
    ∃ conversation keys qa, raw.get "conversation" (.obj []) = .ok conversation ∧ keysOf conversation = .ok keys ∧
      (raw.get "qa" (.arr []) >>= Raw.iter) = .ok qa ∧
      c.sessions.Pairwise (fun s s' => sessionSortKey py s.key ≤ sessionSortKey py s'.key) ∧
      (∀ n, (c.sessions.map (·.key)).filter (fun key => sessionSortKey py key = n) =
        keys.filter (fun key => isSessionKey key ∧ sessionSortKey py key = n)) ∧
      (∀ s ∈ c.sessions, s.Reads py conversation) ∧ List.Forall₂ (LocomoQuestion.Reads py) qa c.questions := by
  obtain ⟨conversation, hconversation, h⟩ := bind_eq_ok.1 h
  obtain ⟨keys, hkeys, h⟩ := bind_eq_ok.1 h
  obtain ⟨sessions, hsessions, h⟩ := bind_eq_ok.1 h
  obtain ⟨value, hvalue, h⟩ := bind_eq_ok.1 h
  obtain ⟨qa, hqa, h⟩ := bind_eq_ok.1 h
  obtain ⟨questions, hquestions, h⟩ := bind_eq_ok.1 h
  obtain ⟨sampleId, -, h⟩ := bind_eq_ok.1 h
  obtain ⟨speakerA, -, h⟩ := bind_eq_ok.1 h
  obtain ⟨speakerB, -, h⟩ := bind_eq_ok.1 h
  obtain rfl := pure_eq_ok.1 h
  have hread := mapM_eq_ok hsessions
  have hsame : sessions.map (·.key) = sessionKeys py keys := by
    have hmap : (sessionKeys py keys).map id = sessions.map (·.key) :=
      map_eq_map hread (fun key s hs => (parseSession_reads hs).1.symm)
    rw [← hmap, List.map_id]
  refine ⟨conversation, keys, qa, hconversation, hkeys, bind_eq_ok.2 ⟨value, hvalue, hqa⟩, ?_, fun n => ?_, ?_, ?_⟩
  · have hsorted := Ranking.pairwise_ranked (fun key => OrderDual.toDual (sessionSortKey py key))
      (keys.filter isSessionKey)
    rw [show Ranking.ranked _ _ = _ from hsame.symm, List.pairwise_map] at hsorted
    exact hsorted.imp (fun h => h)
  · have hties := Ranking.filter_ranked (fun key => OrderDual.toDual (sessionSortKey py key)) (keys.filter isSessionKey)
      (OrderDual.toDual n)
    rw [show Ranking.ranked _ _ = _ from hsame.symm, List.filter_filter] at hties
    simpa [Bool.and_comm] using hties
  · intro s hs
    obtain ⟨key, -, hkey⟩ := mem_mapM hsessions hs
    exact (parseSession_reads hkey).2
  · exact (mapM_eq_ok hquestions).imp (fun _ _ => parseQuestion_reads)

end Reads

/-! ## Scoring -/

variable [Host]

def refusal : Re := .cat [.boundary, .either [
  .lit "no information available", .lit "not mentioned", .lit "no information",
  .cat [.lit "don", .opt (.oneOf "'"), .lit "t know"], .lit "do not know",
  .cat [.lit "isn", .opt (.oneOf "'"), .lit "t mentioned"], .lit "was not mentioned",
    .lit "no record", .lit "nothing about",
  .cat [.lit "cannot ", .either [.lit "tell", .lit "say", .lit "determine"]],
  .cat [.lit "can", .opt (.oneOf "'"), .lit "t ", .either [.lit "tell", .lit "say", .lit "determine"]],
  .cat [.lit "not ", .either [.lit "stated", .lit "specified", .lit "available", .lit "provided", .lit "something i"]],
  .cat [.lit "nothing ", .either [.lit "stored", .lit "in my memory"]], .lit "no memory of", .lit "never mentioned"],
    .boundary]

def declinesToAnswer (answer : String) : Bool := found refusal answer

/-- `judge.score(question, gold, answer)`. -/
abbrev Judge := String → String → String → Except ValidationError Verdict

/-- `SubstringJudge.score`. -/
def SubstringJudge.score : Judge := fun _ gold answer =>
  let hit := Eval.contains (Host.lower (strip gold)) (Host.lower answer)
  .ok ⟨hit, if hit then "gold answer present verbatim" else "gold answer not found"⟩

/-- An adversarial question wants a refusal, any other goes to the judge. -/
def scoreLocomoAnswer (q : LocomoQuestion) (answer : String) (judge : Judge) : Except ValidationError Verdict :=
  if q.isAdversarial then
    if declinesToAnswer answer then .ok ⟨true, "declined a question with a false premise"⟩
    else
      let fellForIt := q.distractor ≠ "" ∧ Eval.contains (Host.lower q.distractor) (Host.lower answer)
      .ok ⟨false, if fellForIt then "repeated the trap answer" else "answered anyway"⟩
  else judge q.question q.answer answer

structure LocomoResult where
  sampleId : String
  question : String
  category : Int
  gold : String
  answer : String
  correct : Bool
  reason : String
  deriving DecidableEq

/-! ## Running -/

/-- The turns are observed, not answered. -/
def replayTurns (ag : Agent) (user : String) (session : LocomoSession) : List LocomoTurn → Nat → Act Nat
  | [], ingested => return ingested
  | turn :: turns, ingested => do
    let _ ← ag.observe user (turn.rendered session.dateTime) (some session.key) .user
    replayTurns ag user session turns (ingested + 1)

def replaySessions (ag : Agent) (user : String) : List LocomoSession → Nat → Act Nat
  | [], ingested => return ingested
  | session :: sessions, ingested => do
    let ingested ← replayTurns ag user session session.turns ingested
    replaySessions ag user sessions ingested

/-- The thread of the question at position `i`. -/
def questionThread (user : String) (i : Nat) : String := user ++ ":q" ++ toString i

def resultOf (user : String) (q : LocomoQuestion) (reply : String) (v : Verdict) : LocomoResult :=
  ⟨user, q.question, q.category, q.answer, reply, v.correct, v.reason⟩

/-- The questions from position `i` on. The judge may decide anew each time; if it
raises, nothing more is asked. -/
def askFrom (ag : Agent) (user : String) (judge : Nat → Judge) : Nat → List LocomoQuestion →
    Act (Except ValidationError (List LocomoResult))
  | _, [] => return .ok []
  | i, q :: qs => do
    let trace ← ag.chat user (questionThread user i) q.question
    match scoreLocomoAnswer q trace.reply (judge i) with
    | .error e => return .error e
    | .ok verdict => do
      let results ← askFrom ag user judge (i + 1) qs
      return results.map (resultOf user q trace.reply verdict :: ·)

/-- `questions[:max_questions] if max_questions else questions`. -/
def capped (questions : List LocomoQuestion) : Option Int → List LocomoQuestion
  | none | some 0 => questions
  | some (.ofNat n) => questions.take n
  | some (.negSucc n) => questions.take (questions.length - (n + 1))

def runConversation (ag : Agent) (c : LocomoConversation) (judge : Nat → Judge) (maxQuestions : Option Int) :
    Act (Except ValidationError (List LocomoResult × Nat)) := do
  let ingested ← replaySessions ag c.sampleId c.sessions 0
  let results ← askFrom ag c.sampleId judge 0 (capped c.questions maxQuestions)
  return results.map (·, ingested)

/-- What the body of the loop of `run_locomo` adds: the results, how many turns were
ingested and how many memories are live. -/
def conversationPart (ag : Agent) (c : LocomoConversation) (judge : Nat → Judge) (maxQuestions : Option Int) :
    Act (Except ValidationError (List LocomoResult × Nat × Nat)) := do
  match ← runConversation ag c judge maxQuestions with
  | .error e => return .error e
  | .ok (results, ingested) => do
    let live ← Eval.liveMemories c.sampleId
    return .ok (results, ingested, live.length)

structure LocomoReport where
  arm : String
  results : List LocomoResult
  turnsIngested : Nat
  memoriesStored : Nat
  deriving DecidableEq

def LocomoReport.plus (r : LocomoReport) (part : List LocomoResult × Nat × Nat) : LocomoReport :=
  ⟨r.arm, r.results ++ part.1, r.turnsIngested + part.2.1, r.memoriesStored + part.2.2⟩

/-- An exception of the agent or of the judge. -/
def raised {α : Type} : Except Error (Except ValidationError α) → Except (Error ⊕ ValidationError) α
  | .error e => .error (.inl e)
  | .ok (.error e) => .error (.inr e)
  | .ok (.ok a) => .ok a

/-- The loop, after what is in the report so far. `feed` gives each conversation its
clock readings and ids, `judge` its verdicts. -/
def runFrom (ag : Agent) (S : Services) (feed : LocomoConversation → Input) (judge : LocomoConversation → Nat → Judge)
    (maxQuestions : Option Int) :
    List LocomoConversation → LocomoReport → World → Except (Error ⊕ ValidationError) LocomoReport
  | [], report, _ => .ok report
  | c :: cs, report, w =>
    let (result, w') := exec S (conversationPart ag c (judge c) maxQuestions) (w.given (feed c))
    match raised result with
    | .error e => .error e
    | .ok part => runFrom ag S feed judge maxQuestions cs (report.plus part) w'

def armName : WriterName → String
  | .naive => "naive"
  | .manager => "manager"

/-- `Agent(settings, ...)`, with the writer of the arm. -/
def armAgent (settings : Settings) (recallTopK : Nat) (arm : WriterName) : Agent :=
  ⟨⟨recallTopK⟩, Graph.buildWriter { settings with memoryWriter := arm }, true⟩

/-- `run_locomo`, on an empty store of its own. -/
def runLocomo (settings : Settings) (recallTopK : Nat) (S : Services) (feed : LocomoConversation → Input)
    (judge : LocomoConversation → Nat → Judge) (conversations : List LocomoConversation) (arm : WriterName)
    (maxQuestions : Option Int) : Except (Error ⊕ ValidationError) LocomoReport :=
  runFrom (armAgent settings recallTopK arm) S feed judge maxQuestions conversations
    ⟨armName arm, [], 0, 0⟩ Backend.empty

end Engram.Locomo

/-! ## A conversation of two sessions -/

namespace Engram.Locomo

open Fallible

/-- `str` of strings and `int` of integers. -/
def plain : Builtins where
  str
    | .str s => s
    | _ => "?"
  int
    | .int n => .ok n
    | _ => .error .valueError
  digit c := if c.isDigit then some (c.toNat - 48) else none
  str_str _ := rfl
  int_int _ := rfl

def turnOf (speaker text : String) : Raw := .obj [("speaker", .str speaker), ("text", .str text)]

/-- The tenth session stands first, and one turn is blank. -/
def sample : Raw := .obj [
  ("conversation", .obj [("session_10", .arr [turnOf "Ann" "bye", turnOf "Ben" " "]),
    ("session_10_date_time", .str "2 May"), ("session_2", .arr [turnOf "Ann" "hi"])]),
  ("qa", .arr [.obj [("question", .str "Who left?"), ("category", .int 5), ("adversarial_answer", .str "Ben")]])]

def sampleRead : LocomoConversation :=
  ⟨"conversation-0", "", "", [⟨"session_2", "", [⟨"Ann", "", "hi"⟩]⟩, ⟨"session_10", "2 May", [⟨"Ann", "", "bye"⟩]⟩],
    [⟨"Who left?", "", "Ben", 5, []⟩]⟩

theorem sample_parsed : parseConversation plain sample 0 = .ok sampleRead := by
  have hfilter : ["session_10", "session_10_date_time", "session_2"].filter isSessionKey =
      ["session_10", "session_2"] := by
    decide +kernel
  have hten : sessionSortKey plain "session_10" = 10 := by decide +kernel
  have htwo : sessionSortKey plain "session_2" = 2 := by decide +kernel
  have hkeys : sessionKeys plain ["session_10", "session_10_date_time", "session_2"] = ["session_2", "session_10"] := by
    rw [sessionKeys, hfilter, Ranking.ranked]
    simp [List.mergeSort, hten, htwo]
  unfold parseConversation
  refine bind_eq_ok.2 ⟨_, rfl, bind_eq_ok.2 ⟨["session_10", "session_10_date_time", "session_2"], rfl, ?_⟩⟩
  rw [hkeys]
  rfl

theorem parse_conversation_sample : sampleRead.sessions.Pairwise
      (fun s s' => sessionSortKey plain s.key ≤ sessionSortKey plain s'.key) ∧
    ∃ qa, List.Forall₂ (LocomoQuestion.Reads plain) qa sampleRead.questions := by
  obtain ⟨conversation, keys, qa, -, -, -, hsorted, -, -, hquestions⟩ := parse_conversation sample_parsed
  exact ⟨hsorted, qa, hquestions⟩

end Engram.Locomo
