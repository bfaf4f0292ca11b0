import Mathlib.Data.List.Basic
/-!
# Python strings

`str.isspace`, `str.strip`, `str.split` and the escaping of `json.dumps`, as
Python documents them. A string is its list of code points.
-/

namespace Text

/-- `str.isspace` on one character, which is also `\s` of `re` on strings. -/
def isSpace (c : Char) : Bool :=
  let n := c.toNat
  (9 ≤ n && n ≤ 13) || (28 ≤ n && n ≤ 32) || n == 133 || n == 160 || n == 5760 ||
    (8192 ≤ n && n ≤ 8202) || n == 8232 || n == 8233 || n == 8239 || n == 8287 || n == 12288

/-- `str.strip()`. -/
def strip (s : String) : String :=
  String.ofList (((s.toList.dropWhile isSpace).reverse.dropWhile isSpace).reverse)

/-- `str.split()`: the runs of characters that are not spaces. -/
def split (s : String) : List String :=
  ((s.toList.splitOnP isSpace).filter (· ≠ [])).map String.ofList

/-- `s.startswith(p)`. -/
def startswith (s p : String) : Bool := p.toList.isPrefixOf s.toList

theorem startswith_iff {s p : String} : startswith s p ↔ p.toList <+: s.toList := List.isPrefixOf_iff_prefix

/-! ## JSON -/

def hexDigit (n : Nat) : Char := Char.ofNat (if n < 10 then 48 + n else 87 + n)

/-- `'\\u{0:04x}'.format(n)`. -/
def unicodeEscape (n : Nat) : List Char :=
  ['\\', 'u', hexDigit (n / 4096 % 16), hexDigit (n / 256 % 16), hexDigit (n / 16 % 16), hexDigit (n % 16)]

/-- One character of a JSON string under `ensure_ascii=True`. -/
def escape (c : Char) : List Char :=
  if c = '"' then ['\\', '"']
  else if c = '\\' then ['\\', '\\']
  else if c.toNat = 8 then ['\\', 'b']
  else if c.toNat = 12 then ['\\', 'f']
  else if c.toNat = 10 then ['\\', 'n']
  else if c.toNat = 13 then ['\\', 'r']
  else if c.toNat = 9 then ['\\', 't']
  else if 32 ≤ c.toNat ∧ c.toNat ≤ 126 then [c]
  else if c.toNat < 65536 then unicodeEscape c.toNat
  -- Above the basic plane: a surrogate pair.
  else unicodeEscape (55296 + (c.toNat - 65536) / 1024) ++ unicodeEscape (56320 + (c.toNat - 65536) % 1024)

def quote (s : String) : List Char := '"' :: s.toList.flatMap escape ++ ['"']

/-- `json.dumps([a, b], ensure_ascii=True, separators=(",", ":"))`. -/
def dumpsPair (a b : String) : String := String.ofList ('[' :: quote a ++ ',' :: quote b ++ [']'])

/-! ## Reading JSON back -/

theorem hexDigit_inj : ∀ a < 16, ∀ b < 16, hexDigit a = hexDigit b → a = b := by decide

theorem unicodeEscape_append_inj {m n : Nat} {x y : List Char} (hm : m < 65536) (hn : n < 65536)
    (h : unicodeEscape m ++ x = unicodeEscape n ++ y) : m = n ∧ x = y := by
  simp only [unicodeEscape, List.cons_append, List.nil_append, List.cons.injEq, true_and] at h
  obtain ⟨h3, h2, h1, h0, hxy⟩ := h
  have d3 := hexDigit_inj _ (by omega) _ (by omega) h3
  have d2 := hexDigit_inj _ (by omega) _ (by omega) h2
  have d1 := hexDigit_inj _ (by omega) _ (by omega) h1
  have d0 := hexDigit_inj _ (by omega) _ (by omega) h0
  exact ⟨by omega, hxy⟩

/-- The two-character escapes: the character after the backslash, and what it stands for. -/
def shorts : List (Char × Char) :=
  [('"', '"'), ('\\', '\\'), ('b', Char.ofNat 8), ('f', Char.ofNat 12), ('n', Char.ofNat 10), ('r', Char.ofNat 13),
    ('t', Char.ofNat 9)]

theorem shorts_inj : ∀ p ∈ shorts, ∀ q ∈ shorts, p.1 = q.1 → p.2 = q.2 := by decide

theorem shorts_ne_u : ∀ p ∈ shorts, p.1 ≠ 'u' := by decide

theorem eq_ofNat {c : Char} {n : Nat} (h : c.toNat = n) : c = Char.ofNat n := by
  rw [← h, Char.ofNat_toNat]

/-- What an escape looks like. -/
theorem escape_cases (c : Char) :
    (∃ s, (s, c) ∈ shorts ∧ escape c = ['\\', s]) ∨ (c ≠ '"' ∧ c ≠ '\\' ∧ escape c = [c]) ∨
      (c.toNat < 65536 ∧ escape c = unicodeEscape c.toNat) ∨
      (65536 ≤ c.toNat ∧ escape c =
        unicodeEscape (55296 + (c.toNat - 65536) / 1024) ++ unicodeEscape (56320 + (c.toNat - 65536) % 1024)) := by
  unfold escape
  split
  · next h => exact .inl ⟨'"', by simp [h, shorts], rfl⟩
  split
  · next h => exact .inl ⟨'\\', by simp [h, shorts], rfl⟩
  split
  · next h => exact .inl ⟨'b', by simp [eq_ofNat h, shorts], rfl⟩
  split
  · next h => exact .inl ⟨'f', by simp [eq_ofNat h, shorts], rfl⟩
  split
  · next h => exact .inl ⟨'n', by simp [eq_ofNat h, shorts], rfl⟩
  split
  · next h => exact .inl ⟨'r', by simp [eq_ofNat h, shorts], rfl⟩
  split
  · next h => exact .inl ⟨'t', by simp [eq_ofNat h, shorts], rfl⟩
  split
  · next hq hb _ _ _ _ _ _ => exact .inr (.inl ⟨hq, hb, rfl⟩)
  split
  · next h => exact .inr (.inr (.inl ⟨h, rfl⟩))
  · next h => exact .inr (.inr (.inr ⟨by omega, rfl⟩))

theorem toNat_inj {c d : Char} (h : c.toNat = d.toNat) : c = d := by
  rw [← Char.ofNat_toNat c, h, Char.ofNat_toNat]

/-- A scalar value is not a surrogate. -/
theorem scalar (c : Char) : c.toNat < 55296 ∨ (57343 < c.toNat ∧ c.toNat < 1114112) := c.valid

/-- No escape is a prefix of another. -/
theorem escape_append_inj {c d : Char} {x y : List Char} (h : escape c ++ x = escape d ++ y) : c = d ∧ x = y := by
  have hc' := scalar c
  have hd' := scalar d
  -- Each is short, plain, `\uXXXX` or a surrogate pair.
  rcases escape_cases c with ⟨s, hs, hc⟩ | ⟨-, hcb, hc⟩ | ⟨hcn, hc⟩ | ⟨hcn, hc⟩ <;>
    rcases escape_cases d with ⟨t, ht, hd⟩ | ⟨-, hdb, hd⟩ | ⟨hdn, hd⟩ | ⟨hdn, hd⟩ <;>
    rw [hc, hd] at h
  · simp only [List.cons_append, List.nil_append, List.cons.injEq, true_and] at h
    exact ⟨shorts_inj _ hs _ ht h.1, h.2⟩
  · exact absurd (List.cons.inj h).1.symm hdb
  · exact absurd (List.cons.inj (List.cons.inj h).2).1 (shorts_ne_u _ hs)
  · exact absurd (List.cons.inj (List.cons.inj h).2).1 (shorts_ne_u _ hs)
  · exact absurd (List.cons.inj h).1 hcb
  · exact List.cons.inj h
  · exact absurd (List.cons.inj h).1 hcb
  · exact absurd (List.cons.inj h).1 hcb
  · exact absurd (List.cons.inj (List.cons.inj h).2).1.symm (shorts_ne_u _ ht)
  · exact absurd (List.cons.inj h).1.symm hdb
  · obtain ⟨hn, hxy⟩ := unicodeEscape_append_inj hcn hdn h
    exact ⟨toNat_inj hn, hxy⟩
  · rw [List.append_assoc] at h
    have hn := (unicodeEscape_append_inj hcn (by omega) h).1
    omega
  · exact absurd (List.cons.inj (List.cons.inj h).2).1.symm (shorts_ne_u _ ht)
  · exact absurd (List.cons.inj h).1.symm hdb
  · rw [List.append_assoc] at h
    have hn := (unicodeEscape_append_inj (by omega) hdn h).1
    omega
  · rw [List.append_assoc, List.append_assoc] at h
    obtain ⟨hhi, h⟩ := unicodeEscape_append_inj (by omega) (by omega) h
    obtain ⟨hlo, hxy⟩ := unicodeEscape_append_inj (by omega) (by omega) h
    exact ⟨toNat_inj (by omega), hxy⟩

/-- An escape does not start with a quote. -/
theorem escape_append_ne (c : Char) (x y : List Char) : escape c ++ x ≠ '"' :: y := by
  intro h
  rcases escape_cases c with ⟨s, -, hc⟩ | ⟨hq, -, hc⟩ | ⟨-, hc⟩ | ⟨-, hc⟩ <;> rw [hc] at h
  · exact absurd (List.cons.inj h).1 (by decide)
  · exact hq (List.cons.inj h).1
  · exact absurd (List.cons.inj h).1 (by decide)
  · exact absurd (List.cons.inj h).1 (by decide)

theorem escapes_append_inj {s t x y : List Char} (h : s.flatMap escape ++ '"' :: x = t.flatMap escape ++ '"' :: y) :
    s = t ∧ x = y := by
  induction s generalizing t with
  | nil =>
    cases t with
    | nil => exact ⟨rfl, (List.cons.inj h).2⟩
    | cons d t =>
      rw [List.flatMap_cons, List.append_assoc] at h
      exact absurd h.symm (escape_append_ne d _ _)
  | cons c s ih =>
    rw [List.flatMap_cons, List.append_assoc] at h
    cases t with
    | nil => exact absurd h (escape_append_ne c _ _)
    | cons d t =>
      rw [List.flatMap_cons, List.append_assoc] at h
      obtain ⟨rfl, hst⟩ := escape_append_inj h
      obtain ⟨rfl, hxy⟩ := ih hst
      exact ⟨rfl, hxy⟩

theorem quote_append_inj {a b : String} {x y : List Char} (h : quote a ++ x = quote b ++ y) : a = b ∧ x = y := by
  simp only [quote, List.cons_append, List.append_assoc, List.cons.injEq, true_and, List.nil_append] at h
  obtain ⟨hab, hxy⟩ := escapes_append_inj h
  exact ⟨String.toList_injective hab, hxy⟩

/-- The encoding of a pair determines it. -/
theorem dumpsPair_inj {a b a' b' : String} (h : dumpsPair a b = dumpsPair a' b') : a = a' ∧ b = b' := by
  have hl := String.ofList_injective h
  simp only [List.cons_append, List.append_assoc, List.cons.injEq, true_and] at hl
  obtain ⟨ha, hl⟩ := quote_append_inj hl
  obtain ⟨hb, -⟩ := quote_append_inj (List.cons.inj hl).2
  exact ⟨ha, hb⟩

/-! ## The encoding is ASCII -/

theorem hexDigit_ascii : ∀ n < 16, (hexDigit n).toNat < 128 := by decide

theorem unicodeEscape_ascii (n : Nat) : ∀ d ∈ unicodeEscape n, d.toNat < 128 := by
  simp only [unicodeEscape, List.forall_mem_cons]
  refine ⟨by decide, by decide, ?_, ?_, ?_, ?_, List.forall_mem_nil _⟩ <;>
    exact hexDigit_ascii _ (Nat.mod_lt _ (by decide))

theorem escape_ascii (c : Char) : ∀ d ∈ escape c, d.toNat < 128 := by
  intro d hd
  unfold escape at hd
  split_ifs at hd
  -- The seven short escapes are letters and punctuation.
  any_goals
    simp only [List.mem_cons, List.not_mem_nil, or_false] at hd
    rcases hd with rfl | rfl <;> decide
  · rw [List.mem_singleton] at hd
    rw [hd]
    omega
  · exact unicodeEscape_ascii _ d hd
  · rcases List.mem_append.1 hd with hd | hd
    · exact unicodeEscape_ascii _ d hd
    · exact unicodeEscape_ascii _ d hd

theorem quote_ascii (s : String) : ∀ d ∈ quote s, d.toNat < 128 := by
  simp only [quote, List.cons_append, List.forall_mem_cons, List.forall_mem_append, List.mem_flatMap]
  refine ⟨by decide, ?_, by decide, List.forall_mem_nil _⟩
  rintro d ⟨c, -, hd⟩
  exact escape_ascii c d hd

theorem dumpsPair_ascii (a b : String) : ∀ d ∈ (dumpsPair a b).toList, d.toNat < 128 := by
  simp only [dumpsPair, String.toList_ofList, List.cons_append, List.append_assoc, List.forall_mem_cons,
    List.forall_mem_append]
  exact ⟨by decide, quote_ascii a, by decide, quote_ascii b, by decide, List.forall_mem_nil _⟩

end Text
