import Engram.Lib.Matching
/-!
# Which match

`re` takes the first match it comes to: at the first position, the first
alternative, the longest run. `tries` lists the stops of `ends` in that order,
for patterns without lazy quantifiers.
-/

namespace Re

/-- At most `n` steps of `f`, more steps before fewer. -/
def greedy (f : Pos → List Pos) : Nat → Pos → List Pos
  | 0, pos => [pos]
  | n + 1, pos => (f pos).flatMap (greedy f n) ++ [pos]

/-- Where a match of `r` started at a position can stop, in the order tried. -/
def tries (isWord : Char → Bool) : Re → Pos → List Pos
  | seq r s, pos => (tries isWord r pos).flatMap (tries isWord s)
  | alt r s, pos => tries isWord r pos ++ tries isWord s pos
  | many p, pos => (runs p pos.1 pos.2).reverse
  | upTo n r, pos => greedy (tries isWord r) n pos
  | r, pos => ends isWord r pos

/-- The text from one position to a later one. -/
def between (pos pos' : Pos) : String := String.ofList (pos.2.take (pos.2.length - pos'.2.length))

/-- `pattern.search(text).group(1)`, if there is a match of `pre(group)post`. -/
def capture (isWord : Char → Bool) (pre group post : Re) (text : String) : Option String :=
  (positions [] text.toList).findSome? fun pos =>
    (tries isWord pre pos).findSome? fun opened =>
      (tries isWord group opened).findSome? fun closed =>
        if (tries isWord post closed).isEmpty then none else some (between opened closed)

/-- `bool(pattern.search(text))` for `pre(?!not)post`. -/
def searchUnless (isWord : Char → Bool) (pre not post : Re) (text : String) : Bool :=
  (positions [] text.toList).any fun pos =>
    (ends isWord pre pos).any fun pos' => (ends isWord not pos').isEmpty && !(ends isWord post pos').isEmpty

/-- `pattern.sub("", text)` for a pattern that starts with `^`. -/
def cutStart (isWord : Char → Bool) (r : Re) (text : String) : String :=
  match (tries isWord r ([], text.toList)).head? with
  | some pos => String.ofList pos.2
  | none => text

/-! ## The order does not matter for what there is -/

variable {isWord : Char → Bool} {r : Re}

theorem mem_greedy {f g : Pos → List Pos} (h : ∀ pos pos', pos' ∈ f pos ↔ pos' ∈ g pos) {n : Nat} {pos pos' : Pos} :
    pos' ∈ greedy f n pos ↔ pos' ∈ repeats g n pos := by
  induction n generalizing pos with
  | zero => rfl
  | succ n ih =>
    rw [greedy, repeats, List.mem_append, List.mem_singleton, List.mem_cons, List.mem_flatMap, List.mem_flatMap,
      or_comm]
    simp only [h, ih]

theorem mem_tries {pos pos' : Pos} : pos' ∈ tries isWord r pos ↔ pos' ∈ ends isWord r pos := by
  induction r generalizing pos pos' with
  | seq r s ihr ihs =>
    simp only [tries, ends, List.mem_flatMap]
    exact exists_congr fun _ => and_congr ihr ihs
  | alt r s ihr ihs => simp only [tries, ends, List.mem_append, ihr, ihs]
  | many p => exact List.mem_reverse
  | upTo n r ih => exact mem_greedy fun _ _ => ih
  | eps => rfl
  | char p => rfl
  | start => rfl
  | boundary => rfl

/-- What `cutStart` cuts off was matched. -/
theorem cutStart_cases (isWord : Char → Bool) (r : Re) (text : String) :
    cutStart isWord r text = text ∨
      ∃ m, text.toList = m ++ (cutStart isWord r text).toList ∧
        Matches isWord r [] m (cutStart isWord r text).toList := by
  unfold cutStart
  split
  · next pos hpos =>
    obtain ⟨m, hm, hmatch⟩ := matches_of_mem_ends (mem_tries.1 (List.mem_of_mem_head? hpos))
    rw [String.toList_ofList]
    exact .inr ⟨m, hm.1, hmatch⟩
  · exact .inl rfl

end Re
