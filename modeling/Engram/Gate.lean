import Engram.Store
/-!
# The injection gate

`gate.py`, and the temporal markers of `extract.py` that the write path checks
expiries against.
-/

namespace Engram

open Re Text

variable [Host]

/-- `bool(pattern.search(text))` for a pattern with `\w` and `\b` of `str`. -/
def found (r : Re) (text : String) : Bool := r.search isWord text

/-! ## Temporal markers -/

def temporalMarkerPattern : Re :=
  cat [boundary, either [
    lit "today", lit "tonight", lit "tomorrow", lit "right now", lit "currently", lit "for now", lit "at the moment",
    seq (lit "this ") (either [lit "morning", lit "afternoon", lit "evening", lit "week", lit "month", lit "sprint",
      lit "quarter", lit "year"]),
    seq (lit "next ") (either [lit "week", lit "month", lit "quarter"]),
    seq (lit "until ") (plus isWord), seq (lit "for the next ") (plus isWord),
    lit "temporarily", seq (lit "for a ") (either [lit "while", lit "bit"]), lit "these days", lit "on call",
    lit "this time"], boundary]

def hasTemporalMarker (text : String) : Bool := found temporalMarkerPattern text

/-! ## Injection markers -/

def spaces : Re := many isSpace

def spaces1 : Re := plus isSpace

def injectionMarkers : List (String × Re) := [
  ("role-header", cat [either [start, oneOf "\n"], spaces, either [lit "system", lit "assistant"], spaces, oneOf ":]"]),
  ("role-tag", cat [oneOf "<", spaces, opt (oneOf "/"), spaces,
    either [lit "system", lit "assistant", seq (lit "instruction") (opt (lit "s"))], spaces, oneOf ">"]),
  ("instruction-override", cat [
    boundary, either [lit "ignore", lit "disregard", lit "forget", lit "override"], boundary, noneOf ".\n" 40,
    boundary, either [lit "previous", lit "prior", lit "above", lit "earlier", lit "all"], boundary, noneOf ".\n" 20,
    boundary, either [lit "instruction", lit "prompt", lit "rule", lit "direction"]]),
  ("memory-command", cat [
    boundary, either [lit "remember", lit "store", lit "save", lit "add", lit "note"], boundary, noneOf ".\n" 30,
    boundary, opt (seq (lit "that") spaces1),
    either [cat [lit "the", spaces1, lit "user"], cat [lit "this", spaces1, lit "user"]], boundary]),
  ("persona-override", cat [boundary, lit "you", spaces1, lit "are", spaces1, lit "now", boundary]),
  ("new-instructions", cat [boundary, lit "new", spaces1, lit "instruction", opt (lit "s"), spaces, oneOf ":-"]),
  ("concealment", cat [boundary, lit "do", spaces1, lit "not", spaces1,
    either [lit "tell", lit "inform", cat [lit "mention", spaces1, lit "to"]], spaces1, lit "the", spaces1,
    lit "user", boundary])]

/-- The names of the injection patterns present in `text`. -/
def findInjectionMarkers (text : String) : List String :=
  (injectionMarkers.filter (fun m => found m.2 text)).map Prod.fst

/-! ## The gate -/

structure InjectionGate where
  scanTrustedContent : Bool

namespace InjectionGate

def inspect (g : InjectionGate) (text : String) (source : Provenance) : GateVerdict :=
  if !isTrusted source then
    ⟨.blockUntrusted, source, "content came from " ++ source.str ++ ", which cannot write user memory", []⟩
  else if g.scanTrustedContent ∧ findInjectionMarkers text ≠ [] then
    ⟨.blockInstruction, source, "text is addressed to the assistant, not about the user", findInjectionMarkers text⟩
  else ⟨.allow, source, "", []⟩

/-- The key a blocked text is kept under. -/
def quarantineKey (now : Time) (text : String) : String := Host.isoformat now ++ ":" ++ Host.blake2b text

def quarantine (userId text : String) (verdict : GateVerdict) (threadId : Option String) : Act Unit := do
  let now ← utcnow
  let quarantinedAt ← utcnow
  storePut (.quarantine userId) (quarantineKey now text)
    ⟨text, verdict.source, verdict.decision, verdict.reason, verdict.markers, threadId, quarantinedAt⟩

def quarantined (userId : String) : Act (List Quarantined) := do
  let items ← storeSearch (.quarantine userId) none 100 0
  return items.map (·.value)

/-- Untrusted content is blocked without reading it. -/
theorem inspect_untrusted (g : InjectionGate) (text : String) {source : Provenance} (h : isTrusted source = false) :
    (g.inspect text source).allowed = false := by
  simp [inspect, h, GateVerdict.allowed]

/-- With scanning off, trusted content is never blocked. -/
theorem inspect_lax (text : String) {source : Provenance} (h : isTrusted source = true) :
    (inspect ⟨false⟩ text source).allowed = true := by
  simp [inspect, h, GateVerdict.allowed]

end InjectionGate

end Engram
