import Mathlib
import Engram.Lib.Text
import Engram.Lib.Regex
/-!
# What the code takes from Python and its libraries

Functions of the standard library that the model does not define: Unicode
tables, date formatting, hashes, square roots. Every theorem holds for all of
them, so in particular for Python's. Numbers are exact.
-/

namespace Engram

/-- Microseconds since 0001-01-01T00:00:00Z. -/
abbrev Time := Nat

/-- `str.lower`, `str.isalnum` (per character), `datetime.isoformat`, the hex
digests of SHA-256 and of BLAKE2b with `digest_size=8`, `math.sqrt`, and the
number of dimensions of the embedder's vectors. -/
class Host where
  lower : String → String
  isAlnum : Char → Bool
  isoformat : Time → String
  sha256 : String → String
  blake2b : String → String
  sqrt : Rat → Rat
  dims : Nat

section
variable [Host]

/-- `\w`. -/
def isWord (c : Char) : Bool := Host.isAlnum c || c == '_'

/-- What Python says of `str.isalnum`: white space never is, and in ASCII only
letters and digits are. -/
structure WordChars : Prop where
  space : ∀ c, Text.isSpace c → Host.isAlnum c = false
  ascii : ∀ c : Char, c.toNat < 128 → Host.isAlnum c = c.isAlphanum

theorem WordChars.not_isWord (h : WordChars) : ∀ c, Text.isSpace c → isWord c = false := by
  intro c hc
  have hne : c ≠ '_' := by
    rintro rfl
    exact absurd hc (by decide)
  simp [isWord, h.space c hc, hne]

/-- An embedding. Every vector comes from one embedder, so all have one length. -/
abbrev Vec := Fin Host.dims → Rat

end

/-! ## Time -/

def day : Nat := 86400 * 1000000

/-- `datetime.max`, the last microsecond of the year 9999. -/
def maxTime : Time := 3652059 * day - 1

/-- `t + timedelta(days=d)`; `none` is an `OverflowError`. -/
def addDays (t : Time) (d : Nat) : Option Time :=
  if d ≤ 999999999 ∧ t + d * day ≤ maxTime then some (t + d * day) else none

theorem addDays_eq_some {t e : Time} {d : Nat} (h : addDays t d = some e) : e = t + d * day := by
  unfold addDays at h
  split at h
  · exact (Option.some.inj h).symm
  · cases h

theorem day_pos : 0 < day := by decide

/-! ## An ASCII host -/

/-- SHA-256 of the thread keys of the examples. -/
def digests : List (String × String) :=
  [("[\"alice\",\"t1\"]", "12116cbc88397e9964841d37fe4c70c0a7dc51227d9af48fb10009505e075602"),
   ("[\"alice\",\"t2\"]", "a6b8c1cdf7e062d22e38eceeebc6a438c355525e8f672a87acff109cb5302f5a"),
   ("[\"bob\",\"t1\"]", "a76c85b1e533211aa294c652532c54287c121d8ea77e3857101b9ebdf2dc948e"),
   ("[\"a:b:c\",\"a:s1\"]", "f0997031d702f065b2e2cfd0f4b8c2b84ecf54e21b81043ed12d927a79eb8ad9"),
   ("[\"a:b:c\",\"a:probe\"]", "83732c54fdf82e65fb7f4be666f349b74df431ffb1eff85367572d84727fafce"),
   ("[\"a:b:c\",\"a:b:s1\"]", "9c2a8254c975eda434c74381d670d8c296222d62097dbc1d6ad5eee86798c4a3"),
   ("[\"a:b:c\",\"a:b:probe\"]", "219f4ab186a489784da15e79635b3be89afa6112d4fece73cfd01ab8c37ac882"),
   ("[\"a:b:d\",\"a:b:s1\"]", "e91dbc76385e012f30b4e7f77b4cb591072f2c836bd997a069a90ddc0cf363ad"),
   ("[\"a:b:d\",\"a:b:probe\"]", "e33bf5c1290cd4d1460d20ae1640450935f929cf2e320cf41ae7777018de1ed8"),
   ("[\"conversation-0\",\"conversation-0:q0\"]", "4d934c62d58330ac02b5fa27a7e26d3adf73db0321abee641765fbfaae276ba9"),
   ("[\"conversation-1\",\"conversation-1:q0\"]", "269885ad3d5594e78dd803db489a5aa481760edc8cc8f1007620a4fa50f7fe63")]

/-- Other strings are tagged. -/
def digest (s : String) : String :=
  match digests.find? (fun e => e.1 = s) with
  | some e => e.2
  | none => "#" ++ s

theorem digest_cases (s : String) :
    (∃ e ∈ digests, e.1 = s ∧ digest s = e.2) ∨ ((∀ e ∈ digests, e.1 ≠ s) ∧ digest s = "#" ++ s) := by
  unfold digest
  cases h : digests.find? (fun e => e.1 = s) with
  | some e => exact .inl ⟨e, List.mem_of_find?_eq_some h, by simpa using List.find?_some h, rfl⟩
  | none => exact .inr ⟨by simpa using h, rfl⟩

theorem digests_untagged : ∀ e ∈ digests, ∀ s : String, e.2 ≠ "#" ++ s := by
  have hhead : ∀ e ∈ digests, e.2.toList.head? ≠ some '#' := by decide +kernel
  intro e he s h
  apply hhead e he
  rw [h, String.toList_append]
  rfl

theorem digest_injective : Function.Injective digest := by
  have hone : ∀ e ∈ digests, ∀ e' ∈ digests, e.2 = e'.2 → e.1 = e'.1 := by decide +kernel
  intro s t h
  obtain ⟨e, he, rfl, hs⟩ | ⟨-, hs⟩ := digest_cases s <;> obtain ⟨e', he', rfl, ht⟩ | ⟨-, ht⟩ := digest_cases t <;>
    rw [hs, ht] at h
  · exact hone e he e' he' h
  · exact absurd h (digests_untagged e he t)
  · exact absurd h.symm (digests_untagged e' he' s)
  · have := congrArg String.toList h
    simp only [String.toList_append] at this
    exact String.toList_injective (List.append_cancel_left this)

/-- Python's functions on ASCII text, for running examples: real lower-casing
and word characters there, and formats and other digests replaced by tagged
copies of their input. -/
@[reducible] def ascii : Host where
  lower s := String.ofList (s.toList.map Char.toLower)
  isAlnum := Char.isAlphanum
  isoformat t := "t" ++ toString t
  sha256 := digest
  blake2b s := "#" ++ s
  sqrt x := x
  dims := 1

theorem isAlphanum_of_isSpace {c : Char} (h : Text.isSpace c) : c.isAlphanum = false := by
  simp only [Text.isSpace, Bool.or_eq_true, Bool.and_eq_true, decide_eq_true_eq, beq_iff_eq] at h
  rw [← Bool.not_eq_true]
  simp only [Char.isAlphanum, Char.isAlpha, Char.isUpper, Char.isLower, Char.isDigit, Bool.or_eq_true,
    Bool.and_eq_true, decide_eq_true_eq, ge_iff_le, UInt32.le_iff_toNat_le, show '0'.val.toNat = 48 from rfl,
    show '9'.val.toNat = 57 from rfl, show 'A'.val.toNat = 65 from rfl, show 'Z'.val.toNat = 90 from rfl,
    show 'a'.val.toNat = 97 from rfl, show 'z'.val.toNat = 122 from rfl]
  simp only [Char.toNat] at h ⊢
  omega

theorem ascii_wordChars : @WordChars ascii :=
  @WordChars.mk ascii (fun _ => isAlphanum_of_isSpace) (fun _ _ => rfl)

end Engram
