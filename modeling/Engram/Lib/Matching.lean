import Engram.Lib.Lines
import Engram.Lib.Regex
/-!
# What a pattern matches

`Matches` is `ends` read as a relation: which part of a text a pattern matches,
given the rest. But for `^`, a match depends on the rest only through `\b`.
-/

namespace Re

/-- `r` matches `m` between `b`, reversed, and `a`. -/
inductive Matches (isWord : Char → Bool) : Re → List Char → List Char → List Char → Prop
  | eps {b a : List Char} : Matches isWord .eps b [] a
  | char {p : Char → Bool} {c : Char} {b a : List Char} (hc : p c) : Matches isWord (.char p) b [c] a
  | seq {r s : Re} {b m n a : List Char} (hr : Matches isWord r b m (n ++ a))
      (hs : Matches isWord s (m.reverse ++ b) n a) : Matches isWord (.seq r s) b (m ++ n) a
  | left {r s : Re} {b m a : List Char} (h : Matches isWord r b m a) : Matches isWord (.alt r s) b m a
  | right {r s : Re} {b m a : List Char} (h : Matches isWord s b m a) : Matches isWord (.alt r s) b m a
  | many {p : Char → Bool} {b m a : List Char} (h : ∀ c ∈ m, p c) : Matches isWord (.many p) b m a
  | stop {n : Nat} {r : Re} {b a : List Char} : Matches isWord (.upTo n r) b [] a
  | more {n : Nat} {r : Re} {b m k a : List Char} (hr : Matches isWord r b m (k ++ a))
      (hk : Matches isWord (.upTo n r) (m.reverse ++ b) k a) : Matches isWord (.upTo (n + 1) r) b (m ++ k) a
  | start {a : List Char} : Matches isWord .start [] [] a
  | boundary {b a : List Char} (h : atBoundary isWord (b, a)) : Matches isWord .boundary b [] a

variable {isWord : Char → Bool} {p : Char → Bool} {r s : Re} {b m n a : List Char}

/-! ## One constructor at a time -/

theorem matches_char : Matches isWord (.char p) b m a ↔ ∃ c, m = [c] ∧ p c := by
  constructor
  · rintro ⟨⟩
    exact ⟨_, rfl, ‹_›⟩
  · rintro ⟨c, rfl, hc⟩
    exact .char hc

theorem matches_seq : Matches isWord (.seq r s) b m a ↔
    ∃ k n, m = k ++ n ∧ Matches isWord r b k (n ++ a) ∧ Matches isWord s (k.reverse ++ b) n a := by
  constructor
  · rintro ⟨⟩
    exact ⟨_, _, rfl, ‹_›, ‹_›⟩
  · rintro ⟨k, n, rfl, hr, hs⟩
    exact .seq hr hs

theorem matches_alt : Matches isWord (.alt r s) b m a ↔ Matches isWord r b m a ∨ Matches isWord s b m a := by
  constructor
  · rintro (_ | _)
    · exact .inl ‹_›
    · exact .inr ‹_›
  · rintro (h | h)
    · exact .left h
    · exact .right h

theorem matches_many : Matches isWord (.many p) b m a ↔ ∀ c ∈ m, p c := by
  constructor
  · rintro ⟨⟩
    assumption
  · exact .many

theorem matches_start : Matches isWord .start b m a ↔ b = [] ∧ m = [] := by
  constructor
  · rintro ⟨⟩
    exact ⟨rfl, rfl⟩
  · rintro ⟨rfl, rfl⟩
    exact .start

theorem matches_either {rs : List Re} : Matches isWord (either rs) b m a ↔ ∃ r ∈ rs, Matches isWord r b m a := by
  unfold either
  induction rs with
  | nil => simp [matches_char]
  | cons r rs ih => rw [List.foldr_cons, matches_alt, ih, List.exists_mem_cons_iff]

theorem Matches.either_of_subset {rs rs' : List Re} (hsub : rs ⊆ rs') (h : Matches isWord (either rs) b m a) :
    Matches isWord (either rs') b m a := by
  obtain ⟨r, hr, hm⟩ := matches_either.1 h
  exact matches_either.2 ⟨r, hsub hr, hm⟩

/-! ## The two readings agree -/

/-- `pos'` is `pos`, moved over `m`. -/
def Moved (pos : Pos) (m : List Char) (pos' : Pos) : Prop := pos.2 = m ++ pos'.2 ∧ pos'.1 = m.reverse ++ pos.1

theorem Moved.trans {pos pos' pos'' : Pos} (h : Moved pos m pos') (h' : Moved pos' n pos'') :
    Moved pos (m ++ n) pos'' :=
  ⟨by rw [h.1, h'.1, List.append_assoc], by rw [h'.2, h.2, List.reverse_append, List.append_assoc]⟩

theorem Moved.refl (pos : Pos) : Moved pos [] pos := ⟨rfl, rfl⟩

theorem mem_runs {before after : List Char} {pos : Pos} :
    pos ∈ runs p before after ↔ ∃ m, Moved (before, after) m pos ∧ ∀ c ∈ m, p c := by
  induction after generalizing before with
  | nil =>
    rw [runs, List.mem_singleton]
    constructor
    · rintro rfl
      exact ⟨[], .refl _, List.forall_mem_nil _⟩
    · rintro ⟨m, ⟨hm, hb⟩, -⟩
      obtain ⟨rfl, hnil⟩ := List.append_eq_nil_iff.1 hm.symm
      exact Prod.ext hb hnil
  | cons c after ih =>
    rw [runs, List.mem_cons]
    constructor
    · rintro (rfl | h)
      · exact ⟨[], .refl _, List.forall_mem_nil _⟩
      · split at h
        · next hc =>
          obtain ⟨m, hm, hall⟩ := ih.1 h
          exact ⟨c :: m, Moved.trans (m := [c]) ⟨rfl, rfl⟩ hm, List.forall_mem_cons.2 ⟨hc, hall⟩⟩
        · cases h
    · rintro ⟨_ | ⟨d, m⟩, ⟨hm, hb⟩, hall⟩
      · exact .inl (Prod.ext hb hm.symm)
      · obtain ⟨rfl, hrest⟩ := List.cons.inj hm
        obtain ⟨hc, hall⟩ := List.forall_mem_cons.1 hall
        rw [if_pos hc]
        exact .inr (ih.2 ⟨m, ⟨hrest, by simpa using hb⟩, hall⟩)

theorem mem_repeats {k : Nat} {pos pos' : Pos}
    (hr : ∀ {pos pos'}, pos' ∈ ends isWord r pos → ∃ m, Moved pos m pos' ∧ Matches isWord r pos.1 m pos'.2)
    (h : pos' ∈ repeats (ends isWord r) k pos) :
    ∃ m, Moved pos m pos' ∧ Matches isWord (.upTo k r) pos.1 m pos'.2 := by
  induction k generalizing pos with
  | zero =>
    obtain rfl := List.mem_singleton.1 h
    exact ⟨[], .refl _, .stop⟩
  | succ k ih =>
    rcases List.mem_cons.1 h with rfl | h
    · exact ⟨[], .refl _, .stop⟩
    · obtain ⟨mid, hmid, h⟩ := List.mem_flatMap.1 h
      obtain ⟨m, hm, hmatch⟩ := hr hmid
      obtain ⟨n, hn, hrest⟩ := ih h
      rw [hn.1] at hmatch
      rw [hm.2] at hrest
      exact ⟨m ++ n, hm.trans hn, .more hmatch hrest⟩

/-- Every stop is the end of a match. -/
theorem matches_of_mem_ends {pos pos' : Pos} (h : pos' ∈ ends isWord r pos) :
    ∃ m, Moved pos m pos' ∧ Matches isWord r pos.1 m pos'.2 := by
  induction r generalizing pos pos' with
  | eps =>
    obtain rfl := List.mem_singleton.1 h
    exact ⟨[], .refl _, .eps⟩
  | char p =>
    obtain ⟨before, _ | ⟨c, after⟩⟩ := pos
    · cases h
    · simp only [ends] at h
      split at h
      · next hc =>
        obtain rfl := List.mem_singleton.1 h
        exact ⟨[c], ⟨rfl, rfl⟩, .char hc⟩
      · cases h
  | seq r s ihr ihs =>
    obtain ⟨mid, hmid, h⟩ := List.mem_flatMap.1 h
    obtain ⟨m, hm, hr⟩ := ihr hmid
    obtain ⟨n, hn, hs⟩ := ihs h
    rw [hn.1] at hr
    rw [hm.2] at hs
    exact ⟨m ++ n, hm.trans hn, .seq hr hs⟩
  | alt r s ihr ihs =>
    rcases List.mem_append.1 h with h | h
    · obtain ⟨m, hm, hr⟩ := ihr h
      exact ⟨m, hm, .left hr⟩
    · obtain ⟨m, hm, hs⟩ := ihs h
      exact ⟨m, hm, .right hs⟩
  | many p =>
    obtain ⟨m, hm, hall⟩ := mem_runs.1 h
    exact ⟨m, hm, .many hall⟩
  | upTo k r ih => exact mem_repeats (fun h => ih h) h
  | start =>
    simp only [ends] at h
    split at h
    · next hb =>
      obtain rfl := List.mem_singleton.1 h
      refine ⟨[], .refl _, ?_⟩
      rw [hb]
      exact .start
    · cases h
  | boundary =>
    simp only [ends] at h
    split at h
    · next hb =>
      obtain rfl := List.mem_singleton.1 h
      exact ⟨[], .refl _, .boundary hb⟩
    · cases h

/-- Every match ends at a stop. -/
theorem Matches.mem_ends (h : Matches isWord r b m a) : (m.reverse ++ b, a) ∈ ends isWord r (b, m ++ a) := by
  induction h with
  | eps => exact List.mem_singleton_self _
  | char hc =>
    simp only [ends, List.cons_append, if_pos hc]
    exact List.mem_singleton_self _
  | seq _ _ ihr ihs =>
    rw [List.append_assoc, List.reverse_append, List.append_assoc]
    exact List.mem_flatMap.2 ⟨_, ihr, ihs⟩
  | left _ ih => exact List.mem_append_left _ ih
  | right _ ih => exact List.mem_append_right _ ih
  | many hall => exact mem_runs.2 ⟨_, ⟨rfl, rfl⟩, hall⟩
  | @stop n r b a =>
    cases n with
    | zero => exact List.mem_singleton_self _
    | succ n => exact List.mem_cons_self
  | more _ _ ihr ihk =>
    rw [List.append_assoc, List.reverse_append, List.append_assoc]
    exact List.mem_cons_of_mem _ (List.mem_flatMap.2 ⟨_, ihr, ihk⟩)
  | start => exact List.mem_singleton_self _
  | boundary hb =>
    simp only [ends, List.nil_append, if_pos hb]
    exact List.mem_singleton_self _

theorem ends_isEmpty_iff {pos : Pos} :
    (ends isWord r pos).isEmpty = false ↔ ∃ m a, pos.2 = m ++ a ∧ Matches isWord r pos.1 m a := by
  rw [← Bool.not_eq_true, List.isEmpty_iff]
  constructor
  · intro h
    obtain ⟨pos', hmem⟩ := List.exists_mem_of_ne_nil _ h
    obtain ⟨m, hm, hmatch⟩ := matches_of_mem_ends hmem
    exact ⟨m, pos'.2, hm.1, hmatch⟩
  · rintro ⟨m, a, hm, hmatch⟩ hnil
    have hmem := hmatch.mem_ends
    rw [← hm] at hmem
    rw [show ends isWord r (pos.1, pos.2) = [] from hnil] at hmem
    cases hmem

theorem mem_positions {before after : List Char} {pos : Pos} :
    pos ∈ positions before after ↔ ∃ m, Moved (before, after) m pos := by
  induction after generalizing before with
  | nil =>
    rw [positions, List.mem_singleton]
    constructor
    · rintro rfl
      exact ⟨[], .refl _⟩
    · rintro ⟨m, hm, hb⟩
      obtain ⟨rfl, hnil⟩ := List.append_eq_nil_iff.1 hm.symm
      exact Prod.ext hb hnil
  | cons c after ih =>
    rw [positions, List.mem_cons]
    constructor
    · rintro (rfl | h)
      · exact ⟨[], .refl _⟩
      · obtain ⟨m, hm⟩ := ih.1 h
        exact ⟨c :: m, Moved.trans (m := [c]) ⟨rfl, rfl⟩ hm⟩
    · rintro ⟨_ | ⟨d, m⟩, hm, hb⟩
      · exact .inl (Prod.ext hb hm.symm)
      · obtain ⟨rfl, hrest⟩ := List.cons.inj hm
        exact .inr (ih.2 ⟨m, hrest, by simpa using hb⟩)

/-- A search finds a part of the text that matches. -/
theorem search_iff {text : String} :
    search isWord r text ↔ ∃ u m v, text.toList = u ++ (m ++ v) ∧ Matches isWord r u.reverse m v := by
  simp only [search, List.any_eq_true, Bool.not_eq_eq_eq_not, Bool.not_true]
  constructor
  · rintro ⟨pos, hpos, hends⟩
    obtain ⟨u, hu⟩ := mem_positions.1 hpos
    obtain ⟨m, v, hm, hmatch⟩ := ends_isEmpty_iff.1 hends
    have hbefore : pos.1 = u.reverse := by simpa using hu.2
    rw [hbefore] at hmatch
    exact ⟨u, m, v, by rw [← hm]; exact hu.1, hmatch⟩
  · rintro ⟨u, m, v, htext, hmatch⟩
    exact ⟨(u.reverse, m ++ v), mem_positions.2 ⟨u, htext, by simp⟩, ends_isEmpty_iff.2 ⟨m, v, rfl, hmatch⟩⟩

/-! ## Surroundings -/

/-- Whether a word character comes first. -/
def wordFirst (isWord : Char → Bool) (l : List Char) : Bool := l.head?.any isWord

theorem wordFirst_append_left {b' : List Char} (m : List Char) (h : wordFirst isWord b = wordFirst isWord b') :
    wordFirst isWord (m ++ b) = wordFirst isWord (m ++ b') := by
  cases m with
  | nil => exact h
  | cons => rfl

theorem wordFirst_append_right (b : List Char) (h : wordFirst isWord a = false) :
    wordFirst isWord (b ++ a) = wordFirst isWord b := by
  cases b with
  | nil => exact h
  | cons => rfl

/-- Whether `^` does not occur. -/
def noStart : Re → Bool
  | seq r s => r.noStart && s.noStart
  | alt r s => r.noStart && s.noStart
  | upTo _ r => r.noStart
  | start => false
  | _ => true

/-- Other surroundings with word characters in the same places do not matter. -/
theorem Matches.of_context {b' a' : List Char} (h : Matches isWord r b m a) (hr : r.noStart)
    (hb : wordFirst isWord b = wordFirst isWord b') (ha : wordFirst isWord a = wordFirst isWord a') :
    Matches isWord r b' m a' := by
  induction h generalizing b' a' with
  | eps => exact .eps
  | char hc => exact .char hc
  | seq _ _ ihr ihs =>
    obtain ⟨hr, hs⟩ := Bool.and_eq_true_iff.1 hr
    exact .seq (ihr hr hb (wordFirst_append_left _ ha)) (ihs hs (wordFirst_append_left _ hb) ha)
  | left _ ih => exact .left (ih (Bool.and_eq_true_iff.1 hr).1 hb ha)
  | right _ ih => exact .right (ih (Bool.and_eq_true_iff.1 hr).2 hb ha)
  | many hall => exact .many hall
  | stop => exact .stop
  | more _ _ ihr ihk => exact .more (ihr hr hb (wordFirst_append_left _ ha)) (ihk hr (wordFirst_append_left _ hb) ha)
  | start => cases hr
  | boundary h =>
    refine .boundary ?_
    simp only [atBoundary, wordFirst] at h hb ha ⊢
    rwa [← hb, ← ha]

/-! ## Parts of a text -/

/-- `part` lies in `text`, and no word goes on across its ends. -/
def Cut (isWord : Char → Bool) (text part : List Char) : Prop :=
  ∃ l v, text = l ++ (part ++ v) ∧ wordFirst isWord l.reverse = false ∧ wordFirst isWord v = false

theorem Cut.refl (text : List Char) : Cut isWord text text := ⟨[], [], by simp, rfl, rfl⟩

theorem Cut.trans {text part part' : List Char} (h : Cut isWord text part) (h' : Cut isWord part part') :
    Cut isWord text part' := by
  obtain ⟨l, v, rfl, hl, hv⟩ := h
  obtain ⟨l', v', rfl, hl', hv'⟩ := h'
  refine ⟨l ++ l', v' ++ v, by simp, ?_, (wordFirst_append_right v' hv).trans hv'⟩
  rw [List.reverse_append]
  exact (wordFirst_append_right _ hl).trans hl'

/-- What is found in a part of a text is found in the text. -/
theorem search_of_cut {text part : String} (hr : r.noStart) (hcut : Cut isWord text.toList part.toList)
    (h : search isWord r part) : search isWord r text := by
  obtain ⟨l, v, htext, hl, hv⟩ := hcut
  obtain ⟨u, m, w, hpart, hm⟩ := search_iff.1 h
  refine search_iff.2 ⟨l ++ u, m, w ++ v, by simp [htext, hpart], ?_⟩
  rw [List.reverse_append]
  exact hm.of_context hr (wordFirst_append_right _ hl).symm (wordFirst_append_right _ hv).symm

/-- Nothing of a word is dropped. -/
theorem cut_dropWhile {q : Char → Bool} (hq : ∀ c, q c → isWord c = false) (l : List Char) :
    Cut isWord l (l.dropWhile q) := by
  refine ⟨l.takeWhile q, [], by simp, ?_, rfl⟩
  cases h : (l.takeWhile q).reverse with
  | nil => rfl
  | cons c t =>
    have hc : c ∈ l.takeWhile q := List.mem_reverse.1 (h ▸ List.mem_cons_self)
    exact hq c (List.mem_takeWhile_imp hc)

theorem Cut.reverse {text part : List Char} (h : Cut isWord text part) : Cut isWord text.reverse part.reverse := by
  obtain ⟨l, v, rfl, hl, hv⟩ := h
  exact ⟨v.reverse, l.reverse, by simp, by rwa [List.reverse_reverse], hl⟩

theorem cut_rdropWhile {q : Char → Bool} (hq : ∀ c, q c → isWord c = false) (l : List Char) :
    Cut isWord l (l.rdropWhile q) := by
  have h := (cut_dropWhile hq l.reverse).reverse
  rwa [List.reverse_reverse] at h

theorem cut_stripped (hspace : ∀ c, Text.isSpace c → isWord c = false) (l : List Char) :
    Cut isWord l (Text.stripped l) :=
  (cut_dropWhile hspace l).trans (cut_rdropWhile hspace _)

/-! ## Stripping -/

/-- Whether only the empty text can match. -/
def blank : Re → Bool
  | eps => true
  | start => true
  | boundary => true
  | seq r s => r.blank && s.blank
  | alt r s => r.blank && s.blank
  | _ => false

theorem Matches.eq_nil (h : Matches isWord r b m a) (hr : r.blank) : m = [] := by
  induction h with
  | eps => rfl
  | seq _ _ ihr ihs =>
    obtain ⟨hr, hs⟩ := Bool.and_eq_true_iff.1 hr
    rw [ihr hr, ihs hs, List.append_nil]
  | left _ ih => exact ih (Bool.and_eq_true_iff.1 hr).1
  | right _ ih => exact ih (Bool.and_eq_true_iff.1 hr).2
  | start => rfl
  | boundary => rfl
  | _ => cases hr

/-- Every match starts with a character with `P`. -/
def Begins (P : Char → Prop) : Re → Prop
  | char p => ∀ c, p c → P c
  | seq r s => r.Begins P ∨ r.blank ∧ s.Begins P
  | alt r s => r.Begins P ∧ s.Begins P
  | _ => False

/-- Every match stops with a character with `P`. -/
def Finishes (P : Char → Prop) : Re → Prop
  | char p => ∀ c, p c → P c
  | seq r s => s.Finishes P ∨ s.blank ∧ r.Finishes P
  | alt r s => r.Finishes P ∧ s.Finishes P
  | _ => False

variable {P : Char → Prop}

theorem Matches.begins (h : Matches isWord r b m a) (hr : r.Begins P) : ∃ c l, m = c :: l ∧ P c := by
  induction h with
  | @char p c b a hc => exact ⟨c, [], rfl, hr c hc⟩
  | @seq r s b m n a hm _ ihr ihs =>
    rcases hr with hr | ⟨hblank, hs⟩
    · obtain ⟨c, l, rfl, hc⟩ := ihr hr
      exact ⟨c, l ++ n, rfl, hc⟩
    · obtain rfl := hm.eq_nil hblank
      exact ihs hs
  | left _ ih => exact ih hr.1
  | right _ ih => exact ih hr.2
  | _ => exact hr.elim

theorem Matches.finishes (h : Matches isWord r b m a) (hr : r.Finishes P) : ∃ l c, m = l ++ [c] ∧ P c := by
  induction h with
  | @char p c b a hc => exact ⟨[], c, rfl, hr c hc⟩
  | @seq r s b m n a _ hn ihr ihs =>
    rcases hr with hs | ⟨hblank, hr⟩
    · obtain ⟨l, c, rfl, hc⟩ := ihs hs
      exact ⟨m ++ l, c, (List.append_assoc m l [c]).symm, hc⟩
    · obtain rfl := hn.eq_nil hblank
      rw [List.append_nil]
      exact ihr hr
  | left _ ih => exact ih hr.1
  | right _ ih => exact ih hr.2
  | _ => exact hr.elim

/-- A character that `strip` keeps. -/
abbrev Solid (c : Char) : Prop := ¬ Text.isSpace c

/-- No character folds onto a space. -/
theorem foldsTo_solid {c d : Char} (hc : Solid c) (h : foldsTo c d) : Solid d := by
  intro hd
  have hcode : d.toNat ≠ 304 ∧ d.toNat ≠ 305 ∧ d.toNat ≠ 8490 ∧ d.toNat ≠ 383 ∧ ¬ (65 ≤ d.toNat ∧ d.toNat ≤ 90) := by
    simp only [Text.isSpace, Bool.or_eq_true, Bool.and_eq_true, decide_eq_true_eq, beq_iff_eq] at hd
    omega
  obtain ⟨h304, h305, h8490, h383, hupper⟩ := hcode
  have hlower : d.toLower = d := by
    unfold Char.toLower
    split
    · next h' => exact absurd (by simpa [Char.le_def, UInt32.le_iff_toNat_le] using h') hupper
    · rfl
  simp only [foldsTo, Bool.or_eq_true, Bool.and_eq_true, beq_iff_eq, hlower] at h
  rcases h with ((h | h) | h) | h
  · exact hc (h ▸ hd)
  all_goals omega

theorem noStart_lit (s : String) : (lit s).noStart := by
  unfold lit
  induction s.toList with
  | nil => rfl
  | cons c l ih => exact ih

theorem begins_lit {s : String} (h : s.toList.head?.any (fun c => !Text.isSpace c)) : (lit s).Begins Solid := by
  unfold lit
  cases hl : s.toList with
  | nil => simp [hl] at h
  | cons c l =>
    simp only [hl, List.head?_cons, Option.any_some, Bool.not_eq_true', ← Bool.not_eq_true] at h
    exact .inl fun _ => foldsTo_solid h

theorem finishes_lit {s : String} (h : s.toList.getLast?.any (fun c => !Text.isSpace c)) :
    (lit s).Finishes Solid := by
  unfold lit
  generalize s.toList = l at h
  induction l with
  | nil => cases h
  | cons c l ih =>
    cases l with
    | nil =>
      simp only [List.getLast?_singleton, Option.any_some, Bool.not_eq_true', ← Bool.not_eq_true] at h
      exact .inr ⟨rfl, fun _ => foldsTo_solid h⟩
    | cons d l =>
      rw [List.getLast?_cons_cons] at h
      exact .inl (ih h)

theorem begins_oneOf {s : String} (h : s.toList.all (fun c => !Text.isSpace c)) : (oneOf s).Begins Solid := by
  intro c hc hspace
  have := List.all_eq_true.1 h c (List.contains_iff_mem.1 hc)
  simp [hspace] at this

theorem finishes_oneOf {s : String} (h : s.toList.all (fun c => !Text.isSpace c)) : (oneOf s).Finishes Solid :=
  begins_oneOf h

/-- `strip` takes nothing from a part with solid ends. -/
theorem stripped_around {u k v : List Char} (hb : ∃ c l, k = c :: l ∧ Solid c) (hf : ∃ l c, k = l ++ [c] ∧ Solid c) :
    Text.stripped (u ++ (k ++ v)) = u.dropWhile Text.isSpace ++ (k ++ v.rdropWhile Text.isSpace) := by
  have hleft : (u ++ (k ++ v)).dropWhile Text.isSpace = u.dropWhile Text.isSpace ++ (k ++ v) := by
    obtain ⟨c, l, rfl, hc⟩ := hb
    rw [List.dropWhile_append]
    split
    · next hnil => rw [List.isEmpty_iff.1 hnil, List.cons_append, List.dropWhile_cons_of_neg hc, List.nil_append]
    · rfl
  obtain ⟨l, c, rfl, hc⟩ := hf
  unfold Text.stripped
  rw [hleft, List.rdropWhile, List.rdropWhile]
  simp only [List.reverse_append, List.append_assoc, List.reverse_cons, List.nil_append, List.cons_append]
  rw [List.dropWhile_append]
  split
  · next hnil => simp [List.isEmpty_iff.1 hnil, List.dropWhile_cons_of_neg hc]
  · simp

theorem wordFirst_rdropWhile (hspace : ∀ c, Text.isSpace c → isWord c = false) (l : List Char) :
    wordFirst isWord (l.rdropWhile Text.isSpace) = wordFirst isWord l := by
  obtain ⟨t, ht⟩ := List.rdropWhile_prefix Text.isSpace l
  cases hl : l.rdropWhile Text.isSpace with
  | nil =>
    cases l with
    | nil => rfl
    | cons c l => exact (hspace c (List.rdropWhile_eq_nil_iff.1 hl c List.mem_cons_self)).symm
  | cons c l' =>
    rw [hl] at ht
    rw [← ht]
    rfl

/-- A match with solid ends is still one after stripping. -/
theorem Matches.stripped (hspace : ∀ c, Text.isSpace c → isWord c = false) {u v : List Char} (hr : r.noStart)
    (h : Matches isWord r u.reverse m v) :
    Matches isWord r (u.dropWhile Text.isSpace).reverse m (v.rdropWhile Text.isSpace) := by
  refine h.of_context hr ?_ (wordFirst_rdropWhile hspace v).symm
  have hu := wordFirst_rdropWhile hspace u.reverse
  rw [List.rdropWhile, List.reverse_reverse] at hu
  exact hu.symm

theorem search_strip {text : String} (hspace : ∀ c, Text.isSpace c → isWord c = false) (hr : r.noStart)
    (hb : r.Begins Solid) (hf : r.Finishes Solid) (h : search isWord r text) :
    search isWord r (Text.strip text) := by
  obtain ⟨u, m, v, htext, hm⟩ := search_iff.1 h
  refine search_iff.2 ⟨u.dropWhile Text.isSpace, m, v.rdropWhile Text.isSpace, ?_, hm.stripped hspace hr⟩
  rw [Text.strip_eq, String.toList_ofList, htext, stripped_around (hm.begins hb) (hm.finishes hf)]

end Re
