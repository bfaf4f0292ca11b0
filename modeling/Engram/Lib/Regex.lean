import Mathlib.Data.List.Basic
/-!
# Regular expressions of Python's `re`

The part of `re` that boolean searches need: character classes, sequences,
alternatives, bounded repetition, unbounded runs of one class, `^` and `\b`. A
position in a text is the reversed text before it and the text after it, and
`ends` lists where a match started at a position can stop. Whether a match
exists does not depend on greediness, so `*` and `*?` are one thing here.
-/

/-- A pattern; `many` is a class under `*`, `upTo n` is `{0,n}`. -/
inductive Re where
  | eps
  | char (p : Char → Bool)
  | seq (r s : Re)
  | alt (r s : Re)
  | many (p : Char → Bool)
  | upTo (n : Nat) (r : Re)
  | start
  | boundary

namespace Re

/-- The text before a position, reversed, and the text after it. -/
abbrev Pos := List Char × List Char

/-- The stops of a run of `p`, from the empty run on. -/
def runs (p : Char → Bool) : List Char → List Char → List Pos
  | before, [] => [(before, [])]
  | before, c :: after => (before, c :: after) :: if p c then runs p (c :: before) after else []

/-- The stops of at most `n` steps of `f`. -/
def repeats (f : Pos → List Pos) : Nat → Pos → List Pos
  | 0, pos => [pos]
  | n + 1, pos => pos :: (f pos).flatMap (repeats f n)

/-- Whether exactly one side of a position is a word character. -/
def atBoundary (isWord : Char → Bool) (pos : Pos) : Bool :=
  pos.1.head?.any isWord != pos.2.head?.any isWord

/-- Where a match of `r` started at a position can stop. -/
def ends (isWord : Char → Bool) : Re → Pos → List Pos
  | eps, pos => [pos]
  | char p, (before, after) =>
    match after with
    | [] => []
    | c :: after => if p c then [(c :: before, after)] else []
  | seq r s, pos => (ends isWord r pos).flatMap (ends isWord s)
  | alt r s, pos => ends isWord r pos ++ ends isWord s pos
  | many p, pos => runs p pos.1 pos.2
  | upTo n r, pos => repeats (ends isWord r) n pos
  | start, pos => if pos.1 = [] then [pos] else []
  | boundary, pos => if atBoundary isWord pos then [pos] else []

/-- Every position of a text, `before` being what was already passed. -/
def positions : List Char → List Char → List Pos
  | before, [] => [(before, [])]
  | before, c :: after => (before, c :: after) :: positions (c :: before) after

/-- `bool(pattern.search(text))`. -/
def search (isWord : Char → Bool) (r : Re) (text : String) : Bool :=
  (positions [] text.toList).any (fun pos => !(ends isWord r pos).isEmpty)

/-! ## Writing patterns -/

/-- The characters that match an ASCII letter under `re.IGNORECASE`: both
cases, and the four non-ASCII characters Python folds onto `i`, `k` and `s`. -/
def foldsTo (c d : Char) : Bool :=
  d.toLower == c || (c == 'i' && (d.toNat == 304 || d.toNat == 305)) ||
    (c == 'k' && d.toNat == 8490) || (c == 's' && d.toNat == 383)

/-- A literal in lower case, under `re.IGNORECASE`. -/
def lit (s : String) : Re := s.toList.foldr (fun c r => seq (char (foldsTo c)) r) eps

def oneOf (s : String) : Re := char (fun c => s.toList.contains c)

/-- `[^s]{0,n}`. -/
def noneOf (s : String) (n : Nat) : Re := upTo n (char (fun c => !s.toList.contains c))

def cat (rs : List Re) : Re := rs.foldr seq eps

/-- Alternatives; no alternative matches nothing. -/
def either (rs : List Re) : Re := rs.foldr alt (char (fun _ => false))

def opt (r : Re) : Re := upTo 1 r

/-- One or more of a class. -/
def plus (p : Char → Bool) : Re := seq (char p) (many p)

end Re
