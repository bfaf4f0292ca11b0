import Engram.Gate
import Engram.Lib.Captures
/-!
# The offline extractor

`RuleFactExtractor` of `extract.py`. A sentence becomes a candidate by its
grammar, and gets its slot from a lexicon.
-/

namespace Engram

open Re Text

variable [Host]

/-! ## Patterns -/

/-- `\w+`. -/
def word : Re := plus isWord

/-- `_DATED_TURN`. -/
def datedTurn : Re :=
  seq (cat [start, spaces, oneOf "[", noneOf1 "]", noneOf1 "]", noneOf1 "]", noneOf "]" 37, oneOf "]"]) spaces
where
  /-- `[^s]`. -/
  noneOf1 (s : String) : Re := char (fun c => !s.toList.contains c)

/-- `_SUBJECT`. -/
def subject : Re :=
  cat [boundary, either [lit "i", lit "we"], opt (seq (lit "'") (either [lit "ve", lit "d", lit "ll"]))]

def stativeVerbs : Re :=
  either [lit "prefer", lit "like", lit "love", lit "hate", lit "use", lit "run", lit "write", lit "deploy", lit "live",
    lit "living", lit "work", lit "working", lit "joined", lit "switched", lit "moved", lit "relocated",
    lit "migrated", lit "eat", lit "am", lit "are"]

/-- `i'?m`. -/
def im : Re := cat [lit "i", opt (lit "'"), lit "m"]

/-- Whether one of `_FACT_PATTERNS` is found. -/
def hasFactPattern (sentence : String) : Bool :=
  found (cat [subject, spaces1, upTo 2 (seq word spaces1), stativeVerbs, boundary]) sentence ||
  searchUnless isWord
    (cat [boundary, im, spaces1, opt (cat [lit "a", opt (lit "n"), spaces1])])
    (cat [word, lit "ing", boundary]) word sentence ||
  found (cat [boundary, lit "my", spaces1, word, spaces1, opt (seq word spaces1), either [lit "is", lit "are"],
    boundary]) sentence

def activityPattern : Re :=
  cat [boundary, either [im, lit "is", lit "are"], spaces1, word, lit "ing", boundary]

def directivePattern : Re :=
  cat [start, spaces, either [lit "always", lit "never", cat [lit "don", opt (lit "'"), lit "t"], lit "do not",
    cat [lit "please", spaces1, either [lit "always", lit "never"]]], boundary]

def transientPattern : Re :=
  cat [boundary, either [lit "today", lit "tonight", lit "right now",
    seq (lit "this ") (either [lit "morning", lit "afternoon", lit "week", lit "sprint"])], boundary]

def transientTtlDays : PNat := 7

/-! ## Slots -/

/-- An attribute, and its pattern around the group that is the value. -/
structure SlotPattern where
  attr : String
  pre : Re
  group : Re
  post : Re

/-- `\b(...)\b` over some names. -/
def SlotPattern.named (attr : String) (names : List Re) : SlotPattern := ⟨attr, boundary, either names, boundary⟩

/-- `[A-Z][a-zA-Z]+`, which minds the case. -/
def properName : Re := seq (char Char.isUpper) (plus Char.isAlpha)

/-- `[a-z]` under `re.IGNORECASE`. -/
def letter (c : Char) : Bool := "abcdefghijklmnopqrstuvwxyz".toList.any (foldsTo · c)

def slotPatterns : List SlotPattern := [
  ⟨"team", cat [boundary, opt (seq (lit "the") spaces1)], plus letter, cat [spaces1, lit "team", boundary]⟩,
  ⟨"location", cat [boundary, either [lit "live in", lit "living in", lit "based in", lit "relocated to",
    lit "moved to", seq im (lit " in")], spaces1], properName, eps⟩,
  .named "testing_framework" [lit "pytest", lit "unittest", lit "jest", lit "vitest", lit "junit", lit "rspec"],
  .named "web_framework" [lit "fastapi", lit "flask", lit "django", lit "express", lit "rails"],
  .named "database" [lit "postgres", lit "postgresql", lit "mysql", lit "sqlite", lit "mongodb", lit "dynamodb"],
  .named "editor" [lit "neovim", lit "zed", lit "emacs", cat [lit "vs", opt (lit " "), lit "code"], lit "pycharm",
    lit "intellij", lit "sublime"],
  .named "language" [lit "typescript", lit "javascript", lit "rust", lit "kotlin", lit "golang"],
  .named "deploy_tool" [lit "terraform", lit "pulumi", lit "ansible", lit "cloudformation", lit "helm"],
  .named "diet" [lit "vegetarian", lit "vegan", lit "pescatarian", lit "halal", lit "kosher"],
  .named "accessibility" [cat [lit "colo", opt (lit "u"), lit "rblind"],
    cat [lit "colo", opt (lit "u"), lit "r", oneOf "- ", lit "blind"], lit "dyslexic"],
  ⟨"pet_name", cat [boundary, lit "my ", either [lit "dog", lit "cat"], spaces1], properName, eps⟩]

/-! ## Sentences -/

def isTerminator (c : Char) : Bool := ".!?".toList.contains c

/-- `_SENTENCE_SPLIT.split`: a run of white space right after a terminator is a gap. `piece` is what came since
the last gap, reversed. -/
def splitSentences : (gap : Bool) → (piece : List Char) → List Char → List String
  | _, piece, [] => [String.ofList piece.reverse]
  | gap, piece, c :: rest =>
    if isSpace c ∧ gap then splitSentences true [] rest
    else if isSpace c ∧ piece.head?.any isTerminator then
      String.ofList piece.reverse :: splitSentences true [] rest
    else splitSentences false (c :: piece) rest

/-- `raw.strip().rstrip(".!?").strip()`. -/
def trimmed (raw : String) : String := strip (String.ofList ((strip raw).toList.rdropWhile isTerminator))

namespace RuleFactExtractor

/-- `_is_fact`. -/
def isFact (sentence : String) (transient : Bool) : Bool :=
  if found activityPattern sentence then transient else hasFactPattern sentence

/-- `_slot`: the first hit wins. -/
def slot (sentence : String) : String × String :=
  (slotPatterns.findSome? fun p =>
    (capture isWord p.pre p.group p.post sentence).map fun value => (p.attr, Host.lower (strip value))).getD ("", "")

/-- One round of the loop of `extract`. -/
def fact (sentence : String) : Option CandidateFact :=
  if h : sentence = "" then none
  else
    let directive := found directivePattern sentence
    let transient := found transientPattern sentence
    if !directive && !isFact sentence transient then none
    else some {
      text := sentence
      text_ne := h
      attr := (slot sentence).1
      value := (slot sentence).2
      scope := ""
      kind := if directive then .procedural else .semantic
      importance := if directive || (slot sentence).1 ≠ "" then ⟨4 / 5, by norm_num, by norm_num⟩ else .half
      ttlDays := if transient then some transientTtlDays else none }

def extract (turn : String) : List CandidateFact :=
  (splitSentences false [] (cutStart isWord datedTurn (strip turn)).toList).filterMap fun raw => fact (trimmed raw)

end RuleFactExtractor

end Engram
