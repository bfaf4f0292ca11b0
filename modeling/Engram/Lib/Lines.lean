import Mathlib.Data.List.DropRight
import Engram.Lib.Text
/-!
# Lines and delimiters

`str.splitlines`, and the parts of a text between two delimiters, as
`re.findall(start + "(.*?)" + stop, s, re.DOTALL)` finds them. Texts are lists
of characters here.
-/

namespace Text

/-! ## Delimiters -/

section Delimiters
variable {α : Type} [DecidableEq α]

/-- What comes before the first occurrence of `sep`, and after it. -/
def cutAt (sep : List α) : List α → Option (List α × List α)
  | [] => if sep = [] then some ([], []) else none
  | c :: cs =>
    if sep <+: c :: cs then some ([], (c :: cs).drop sep.length)
    else (cutAt sep cs).map (fun p => (c :: p.1, p.2))

/-- The matches among the first `n`. -/
def betweenFrom (start stop : List α) : Nat → List α → List (List α)
  | 0, _ => []
  | n + 1, s => match cutAt start s with
    | none => []
    | some (_, rest) => match cutAt stop rest with
      | none => []
      | some (block, rest) => block :: betweenFrom start stop n rest

/-- The shortest parts from each `start` to the next `stop`. -/
def between (start stop s : List α) : List (List α) := betweenFrom start stop (s.length + 1) s

variable {sep start stop s before after : List α}

/-- The first occurrence: there is none within what comes before. -/
theorem cutAt_eq_some (hsep : sep ≠ []) (h : cutAt sep s = some (before, after)) :
    s = before ++ sep ++ after ∧ ¬ sep <:+: before := by
  induction s generalizing before with
  | nil =>
    rw [cutAt, if_neg hsep] at h
    cases h
  | cons c cs ih =>
    rw [cutAt] at h
    split at h
    · next hpre =>
      cases h
      obtain ⟨t, ht⟩ := hpre
      refine ⟨by rw [← ht, List.drop_left]; rfl, fun hin => hsep ?_⟩
      exact List.eq_nil_of_infix_nil hin
    · next hpre =>
      obtain ⟨⟨before', after'⟩, hcut, hp⟩ := Option.map_eq_some_iff.1 h
      cases hp
      obtain ⟨rfl, hnot⟩ := ih hcut
      refine ⟨rfl, fun hin => ?_⟩
      rcases List.infix_cons_iff.1 hin with hin | hin
      · exact hpre (hin.trans ⟨sep ++ after', by simp⟩)
      · exact hnot hin

theorem cutAt_eq_none (hsep : sep ≠ []) (h : ¬ sep <:+: s) : cutAt sep s = none := by
  cases hcut : cutAt sep s with
  | none => rfl
  | some p => exact absurd ⟨p.1, p.2, (cutAt_eq_some hsep hcut).1.symm⟩ h

/-- A part without the first character of `sep` is passed over. -/
theorem cutAt_append_of_notMem {c : α} {l : List α} (hc : c ∉ l) :
    cutAt (c :: sep) (l ++ s) = (cutAt (c :: sep) s).map (fun p => (l ++ p.1, p.2)) := by
  induction l with
  | nil => simp
  | cons a l ih =>
    obtain ⟨hne, hc⟩ := not_or.1 (List.mem_cons.not.1 hc)
    have hpre : ¬ (c :: sep <+: a :: (l ++ s)) := fun h => hne (List.cons_prefix_cons.1 h).1
    rw [List.cons_append, cutAt, if_neg hpre, ih hc, Option.map_map]
    rfl

theorem cutAt_self (sep rest : List α) (hsep : sep ≠ []) : cutAt sep (sep ++ rest) = some ([], rest) := by
  cases sep with
  | nil => exact absurd rfl hsep
  | cons c sep =>
    rw [List.cons_append, cutAt, if_pos ⟨rest, rfl⟩, ← List.cons_append, List.drop_left]

omit [DecidableEq α] in
/-- An occurrence without `b` ends before `b`. -/
theorem prefix_of_prefix_line {b : α} {l : List α} (hb : b ∉ sep) (h : sep <+: l ++ b :: s) : sep <+: l := by
  rcases List.prefix_or_prefix_of_prefix h (List.prefix_append l _) with hsep | ⟨q, hq⟩
  · exact hsep
  subst hq
  have hq := (List.prefix_append_right_inj l).1 h
  cases q with
  | nil => simp
  | cons c q =>
    have hc : c = b := (List.cons_prefix_cons.1 hq).1
    simp [hc] at hb

/-- A line without `sep` is passed over, if `sep` has no line break. -/
theorem cutAt_line {b : α} {l : List α} (hb : b ∉ sep) (hl : ¬ sep <:+: l) :
    cutAt sep (l ++ b :: s) = (cutAt sep s).map (fun p => (l ++ b :: p.1, p.2)) := by
  induction l with
  | nil =>
    have hpre : ¬ sep <+: b :: s := fun h => hl (prefix_of_prefix_line (l := []) hb h).isInfix
    rw [List.nil_append, cutAt, if_neg hpre]
    rfl
  | cons a l ih =>
    have hpre : ¬ sep <+: a :: (l ++ b :: s) := fun h => hl (prefix_of_prefix_line (l := a :: l) hb h).isInfix
    have hrest : ¬ sep <:+: l := fun h => hl (List.infix_cons h)
    rw [List.cons_append, cutAt, if_neg hpre, ih hrest, Option.map_map]
    rfl

theorem length_cutAt (hsep : sep ≠ []) (h : cutAt sep s = some (before, after)) : after.length < s.length := by
  obtain ⟨rfl, -⟩ := cutAt_eq_some hsep h
  have hpos := List.length_pos_of_ne_nil hsep
  simp only [List.length_append]
  omega

/-- The bound does not matter once it is above the length. -/
theorem betweenFrom_eq (hstart : start ≠ []) (hstop : stop ≠ []) {n m : Nat} (hn : s.length < n) (hm : s.length < m) :
    betweenFrom start stop n s = betweenFrom start stop m s := by
  induction n generalizing m s with
  | zero => omega
  | succ n ih =>
    obtain ⟨m, rfl⟩ : ∃ k, m = k + 1 := ⟨m - 1, by omega⟩
    unfold betweenFrom
    split
    · rfl
    · next hcut =>
      have hlen := length_cutAt hstart hcut
      split
      · rfl
      · next hcut' =>
        have hlen' := length_cutAt hstop hcut'
        rw [ih (m := m) (by omega) (by omega)]

/-- The first match, and those after it. -/
theorem between_eq (hstart : start ≠ []) (hstop : stop ≠ []) {block rest' : List α} {rest : List α}
    (h : cutAt start s = some (before, rest)) (h' : cutAt stop rest = some (block, rest')) :
    between start stop s = block :: between start stop rest' := by
  have hlen := length_cutAt hstart h
  have hlen' := length_cutAt hstop h'
  unfold between
  rw [betweenFrom, h]
  simp only [h']
  rw [betweenFrom_eq (m := s.length) hstart hstop (Nat.lt_succ_self _) (by omega)]

theorem between_of_none (h : cutAt start s = none) : between start stop s = [] := by
  unfold between betweenFrom
  rw [h]

theorem between_of_open (h : cutAt start s = some (before, after)) (h' : cutAt stop after = none) :
    between start stop s = [] := by
  unfold between betweenFrom
  rw [h]
  simp only [h']

theorem not_infix_of_mem_between (hstop : stop ≠ []) {block : List α} (h : block ∈ between start stop s) :
    ¬ stop <:+: block := by
  suffices ∀ n s, block ∈ betweenFrom start stop n s → ¬ stop <:+: block from this _ _ h
  intro n
  induction n with
  | zero =>
    intro s h
    cases h
  | succ n ih =>
    intro s h
    unfold betweenFrom at h
    split at h
    · cases h
    split at h
    · cases h
    · next hcut =>
      rcases List.mem_cons.1 h with rfl | h
      · exact (cutAt_eq_some hstop hcut).2
      · exact ih _ h

end Delimiters

/-! ## Lines -/

/-- The line boundaries of `str.splitlines`. -/
def isLineBreak (c : Char) : Bool :=
  let n := c.toNat
  (10 ≤ n && n ≤ 13) || (28 ≤ n && n ≤ 30) || n == 133 || n == 8232 || n == 8233

/-- `str.splitlines()`: no empty line after a last line break. -/
def splitlines : List Char → List (List Char)
  | [] => []
  | '\r' :: '\n' :: cs => [] :: splitlines cs
  | c :: cs =>
    if isLineBreak c then [] :: splitlines cs
    else match splitlines cs with
      | [] => [[c]]
      | l :: ls => (c :: l) :: ls

/-- Has no line break. -/
def OneLine (l : List Char) : Prop := ∀ c ∈ l, ¬ isLineBreak c

instance (l : List Char) : Decidable (OneLine l) := List.decidableBAll (fun c => ¬ isLineBreak c) l

/-- Lines, each ended by a line feed. -/
def unlines (ls : List (List Char)) : List Char := ls.flatMap (· ++ ['\n'])

theorem splitlines_line {l s : List Char} (h : OneLine l) : splitlines (l ++ '\n' :: s) = l :: splitlines s := by
  induction l with
  | nil => simp [splitlines, isLineBreak]
  | cons c l ih =>
    obtain ⟨hc, hl⟩ := List.forall_mem_cons.1 h
    have hcr : c ≠ '\r' := by
      rintro rfl
      exact hc (by decide)
    have hstep : splitlines (c :: (l ++ '\n' :: s)) =
        if isLineBreak c then [] :: splitlines (l ++ '\n' :: s)
        else match splitlines (l ++ '\n' :: s) with
          | [] => [[c]]
          | l :: ls => (c :: l) :: ls := by
      rw [splitlines]
      rintro _ rfl
      exact absurd rfl hcr
    rw [List.cons_append, hstep, if_neg hc, ih hl]

theorem splitlines_unlines {ls : List (List Char)} (h : ∀ l ∈ ls, OneLine l) : splitlines (unlines ls) = ls := by
  induction ls with
  | nil => rfl
  | cons l ls ih =>
    obtain ⟨hl, hls⟩ := List.forall_mem_cons.1 h
    have hcons : unlines (l :: ls) = l ++ '\n' :: unlines ls := by simp [unlines]
    rw [hcons, splitlines_line hl, ih hls]

/-- The first line starts the text. -/
theorem prefix_of_splitlines {l s : List Char} {ls : List (List Char)} (h : splitlines s = l :: ls) : l <+: s := by
  fun_induction splitlines s generalizing l ls with
  | case1 => cases h
  | case2 cs ih => exact (List.cons.inj h).1 ▸ List.nil_prefix
  | case3 c cs hcr hc ih => exact (List.cons.inj h).1 ▸ List.nil_prefix
  | case4 c cs hcr hc hnil ih => exact (List.cons.inj h).1 ▸ ⟨cs, rfl⟩
  | case5 c cs hcr hc l' ls' hcons ih =>
    rw [← (List.cons.inj h).1]
    exact List.cons_prefix_cons.2 ⟨rfl, ih hcons⟩

/-- A line is a part of the text, without line breaks. -/
theorem mem_splitlines {l s : List Char} (h : l ∈ splitlines s) : OneLine l ∧ l <:+: s := by
  have hnil : OneLine [] := fun _ hc => absurd hc List.not_mem_nil
  fun_induction splitlines s generalizing l with
  | case1 => cases h
  | case2 cs ih =>
    rcases List.mem_cons.1 h with rfl | h
    · exact ⟨hnil, List.nil_infix⟩
    · exact ⟨(ih h).1, List.infix_cons (List.infix_cons (ih h).2)⟩
  | case3 c cs hcr hc ih =>
    rcases List.mem_cons.1 h with rfl | h
    · exact ⟨hnil, List.nil_infix⟩
    · exact ⟨(ih h).1, List.infix_cons (ih h).2⟩
  | case4 c cs hcr hc hsplit ih =>
    obtain rfl := List.mem_singleton.1 h
    exact ⟨List.forall_mem_cons.2 ⟨hc, hnil⟩, (List.prefix_append [c] cs).isInfix⟩
  | case5 c cs hcr hc l' ls' hcons ih =>
    rcases List.mem_cons.1 h with rfl | h
    · have hl := ih (by rw [hcons]; exact List.mem_cons_self)
      have hpre := prefix_of_splitlines hcons
      exact ⟨List.forall_mem_cons.2 ⟨hc, hl.1⟩, (List.cons_prefix_cons.2 ⟨rfl, hpre⟩).isInfix⟩
    · have hl := ih (by rw [hcons]; exact List.mem_cons_of_mem _ h)
      exact ⟨hl.1, List.infix_cons hl.2⟩

/-- A delimiter without a line feed comes right after lines without it. -/
theorem cutAt_unlines (rest : List Char) {sep : List Char} {ls : List (List Char)} (hsep : sep ≠ []) (hb : '\n' ∉ sep)
    (hls : ∀ l ∈ ls, ¬ sep <:+: l) : cutAt sep (unlines ls ++ (sep ++ rest)) = some (unlines ls, rest) := by
  induction ls with
  | nil => exact cutAt_self sep rest hsep
  | cons l ls ih =>
    obtain ⟨hl, hls⟩ := List.forall_mem_cons.1 hls
    have hcons : ∀ t, unlines (l :: ls) ++ t = l ++ '\n' :: (unlines ls ++ t) := fun t => by simp [unlines]
    rw [hcons, cutAt_line hb hl, ih hls]
    simp [unlines]

/-! ## Stripped text -/

/-- Neither starts nor ends with a space. -/
def stripped (l : List Char) : List Char := (l.dropWhile isSpace).rdropWhile isSpace

/-- Python's `strip`, on characters. -/
theorem strip_eq (s : String) : strip s = String.ofList (stripped s.toList) := rfl

theorem stripped_part (l : List Char) : stripped l <:+: l :=
  (List.rdropWhile_prefix _ _).isInfix.trans (List.dropWhile_suffix _).isInfix

theorem stripped_eq_self_iff {l : List Char} :
    stripped l = l ↔ l.dropWhile isSpace = l ∧ l.rdropWhile isSpace = l := by
  constructor
  · intro h
    have hpre : stripped l <+: l.dropWhile isSpace := List.rdropWhile_prefix _ _
    have hlen : l.length ≤ (l.dropWhile isSpace).length := by
      rw [h] at hpre
      exact hpre.length_le
    have hd : l.dropWhile isSpace = l := (List.dropWhile_suffix _).eq_of_length_le hlen
    refine ⟨hd, ?_⟩
    unfold stripped at h
    rwa [hd] at h
  · rintro ⟨hd, hr⟩
    unfold stripped
    rw [hd, hr]

/-- What is left starts with what the first step left. -/
theorem stripped_stripped (l : List Char) : stripped (stripped l) = stripped l := by
  refine stripped_eq_self_iff.2 ⟨?_, List.rdropWhile_idempotent _ _⟩
  rw [List.dropWhile_eq_self_iff]
  intro hpos
  have hpre : stripped l <+: l.dropWhile isSpace := List.rdropWhile_prefix _ _
  have hd : 0 < (l.dropWhile isSpace).length := by
    have := hpre.length_le
    omega
  have hhead : (stripped l)[0] = (l.dropWhile isSpace)[0] := hpre.getElem hpos
  rw [hhead]
  exact List.dropWhile_eq_self_iff.1 (List.dropWhile_idempotent _ _) hd

/-- A mark before a stripped text stays. -/
theorem stripped_cons_append {c : Char} {p l : List Char} (hc : ¬ isSpace c) (hl : stripped l = l) (hne : l ≠ []) :
    stripped (c :: p ++ l) = c :: p ++ l := by
  have hlast := List.rdropWhile_eq_self_iff.1 (stripped_eq_self_iff.1 hl).2 hne
  refine stripped_eq_self_iff.2 ⟨?_, ?_⟩
  · rw [List.cons_append, List.dropWhile_cons_of_neg hc]
  · rw [List.rdropWhile_eq_self_iff]
    intro _
    rwa [List.getLast_append_of_ne_nil _ hne]

end Text
