import Engram.Config
import Engram.Lib.Lines
/-!
# The connection string

`resolved_dsn` writes user and password with `quote_plus`. A connection URI
knows no plus sign for a space, so a credential with a space is read as another.
-/

namespace Engram

open Text Url

/-! ## Connection URIs -/

structure PgUri where
  user : String
  password : String
  host : String
  port : String
  db : String
  deriving DecidableEq

namespace PgUri

def scheme : List Char := "postgresql://".toList

/-- The user and the password, which starts after the first colon. -/
def credentials (userinfo : List Char) : List Char × List Char := (cutAt [':'] userinfo).getD (userinfo, [])

/-- The parts of a connection URI: the user information ends at the first `@`, and only `%XX` is decoded. -/
def split (dsn : String) : Option PgUri :=
  if scheme.isPrefixOf dsn.toList then do
    let (userinfo, rest) ← cutAt ['@'] (dsn.toList.drop scheme.length)
    let (hostport, db) ← cutAt ['/'] rest
    let (host, port) ← cutAt [':'] hostport
    return ⟨← decode (credentials userinfo).1, ← decode (credentials userinfo).2, ← decode host, ← decode port,
      ← decode db⟩
  else none

end PgUri

/-! ## Names -/

def isNameChar (c : Char) : Bool := c.isAlphanum || c == '.' || c == '-' || c == '_'

/-- Letters, digits, dots, hyphens and underscores. -/
def IsName (s : String) : Prop := s.toList.all isNameChar

/-- No other character is in a name. -/
theorem IsName.notMem {s : String} (h : IsName s) {d : Char} (hd : isNameChar d = false) : d ∉ s.toList := by
  intro hmem
  rw [List.all_eq_true.1 h d hmem] at hd
  cases hd

theorem isName_toString (n : Int) : IsName (toString n) := by
  have hnat : ∀ k : Nat, IsName (Nat.repr k) := by
    intro k
    refine List.all_eq_true.2 fun c hc => ?_
    rw [Nat.repr, String.toList_ofList] at hc
    have hdigit : c.isDigit := Nat.isDigit_of_mem_toDigits (by omega) (by omega) hc
    simp [isNameChar, Char.isAlphanum, hdigit]
  cases n with
  | ofNat k => exact hnat k
  | negSucc k =>
    have hneg : (toString (Int.negSucc k)).toList = '-' :: (Nat.repr (k + 1)).toList := by
      show ("-" ++ Nat.repr (k + 1)).toList = _
      rw [String.toList_append]
      rfl
    unfold IsName
    rw [hneg, List.all_cons, Bool.and_eq_true]
    exact ⟨by decide, hnat _⟩

theorem notMem_quotePlus {s : String} {d : Char} (hd : isUnreserved d = false) (hp : d ≠ '%' ∧ d ≠ '+') :
    d ∉ (quotePlus s).toList := by
  intro hmem
  rcases quotePlus_chars d hmem with h | h | h
  · rw [hd] at h
    cases h
  · exact hp.1 h
  · exact hp.2 h

/-! ## Splitting what was assembled -/

/-- The first `d` ends what has none. -/
theorem cutAt_delimiter {d : Char} {l : List Char} (hd : d ∉ l) (s : List Char) :
    cutAt [d] (l ++ d :: s) = some (l, s) := by
  rw [cutAt_append_of_notMem hd]
  have hself := cutAt_self [d] s (by simp)
  rw [List.singleton_append] at hself
  simp [hself]

/-- The user information of the connection string. -/
def auth (s : Settings) : List Char :=
  (quotePlus s.postgresUser).toList ++
    if s.postgresPassword = "" then [] else ':' :: (quotePlus s.postgresPassword).toList

theorem toList_resolvedDsn {s : Settings} (h : s.postgresHost ≠ "") :
    s.resolvedDsn.toList = PgUri.scheme ++ (auth s ++ '@' ::
      ((s.postgresHost.toList ++ ':' :: (toString s.postgresPort).toList) ++ '/' :: s.postgresDb.toList)) := by
  have hscheme : "postgresql://".toList = PgUri.scheme := rfl
  have hat : "@".toList = ['@'] := rfl
  have hcolon : ":".toList = [':'] := rfl
  have hslash : "/".toList = ['/'] := rfl
  unfold Settings.resolvedDsn auth
  rw [if_neg h]
  by_cases hpw : s.postgresPassword = "" <;>
    simp only [hpw, if_true, if_false, String.toList_append, hscheme, hat, hcolon, hslash, List.append_assoc,
      List.cons_append, List.nil_append]

theorem credentials_auth (s : Settings) : PgUri.credentials (auth s) =
    ((quotePlus s.postgresUser).toList, (quotePlus s.postgresPassword).toList) := by
  have huser : ':' ∉ (quotePlus s.postgresUser).toList := notMem_quotePlus (by decide) (by decide)
  unfold PgUri.credentials auth
  by_cases hpw : s.postgresPassword = ""
  · have hnone : cutAt [':'] (quotePlus s.postgresUser).toList = none :=
      cutAt_eq_none (by simp) (fun h => huser (h.subset List.mem_cons_self))
    rw [if_pos hpw, List.append_nil, hnone, hpw, quotePlus_empty, Option.getD_none, String.toList_empty]
  · rw [if_neg hpw, cutAt_delimiter huser, Option.getD_some]

theorem at_notMem_auth (s : Settings) : '@' ∉ auth s := by
  unfold auth
  rw [List.mem_append, not_or]
  refine ⟨notMem_quotePlus (by decide) (by decide), ?_⟩
  split
  · exact List.not_mem_nil
  · rw [List.mem_cons, not_or]
    exact ⟨by decide, notMem_quotePlus (by decide) (by decide)⟩

/-- Spaces become plus signs, and all else comes back. -/
theorem split_resolvedDsn (s : Settings) (hhost : s.postgresHost ≠ "") (hh : IsName s.postgresHost)
    (hdb : IsName s.postgresDb) :
    PgUri.split s.resolvedDsn = some ⟨String.ofList (s.postgresUser.toList.map plusForSpace),
      String.ofList (s.postgresPassword.toList.map plusForSpace), s.postgresHost, toString s.postgresPort,
      s.postgresDb⟩ := by
  have hport := isName_toString s.postgresPort
  have hslash : '/' ∉ s.postgresHost.toList ++ ':' :: (toString s.postgresPort).toList := by
    rw [List.mem_append, List.mem_cons, not_or, not_or]
    exact ⟨hh.notMem (by decide), by decide, hport.notMem (by decide)⟩
  have hcolon : ':' ∉ s.postgresHost.toList := hh.notMem (by decide)
  have hplain : ∀ {t : String}, IsName t → decode t.toList = some t := by
    intro t ht
    rw [decode_plain (ht.notMem (by decide)), String.ofList_toList]
  have hprefix : PgUri.scheme.isPrefixOf s.resolvedDsn.toList := by
    rw [toList_resolvedDsn hhost, List.isPrefixOf_iff_prefix]
    exact List.prefix_append _ _
  rw [PgUri.split, if_pos hprefix, toList_resolvedDsn hhost, List.drop_left, cutAt_delimiter (at_notMem_auth s)]
  simp only [Option.bind_eq_bind, Option.bind_some, Option.pure_def, cutAt_delimiter hslash, cutAt_delimiter hcolon,
    credentials_auth, decode_quotePlus, hplain hh, hplain hport, hplain hdb]

/-- The parts that the connection string was assembled from come back, if and only if neither the user nor
the password has a space. -/
theorem resolvedDsn_split_iff (s : Settings) (hhost : s.postgresHost ≠ "") (hh : IsName s.postgresHost)
    (hdb : IsName s.postgresDb) :
    PgUri.split s.resolvedDsn = some ⟨s.postgresUser, s.postgresPassword, s.postgresHost, toString s.postgresPort,
      s.postgresDb⟩ ↔ ' ' ∉ s.postgresUser.toList ∧ ' ' ∉ s.postgresPassword.toList := by
  rw [split_resolvedDsn s hhost hh hdb, Option.some.injEq, PgUri.mk.injEq, plusForSpace_eq_self_iff,
    plusForSpace_eq_self_iff]
  simp

/-- Reserved characters in the password are no trouble. -/
theorem resolvedDsn_split_iff_reserved :
    PgUri.split (Settings.resolvedDsn { postgresHost := "db.internal", postgresPassword := "p@ss/w#rd" }) =
      some ⟨"engram", "p@ss/w#rd", "db.internal", toString (5432 : Int), "engram"⟩ :=
  (resolvedDsn_split_iff { postgresHost := "db.internal", postgresPassword := "p@ss/w#rd" } (by decide)
    rfl rfl).2 (by decide)

/-- The password `a b` is read as `a+b`. -/
theorem resolvedDsn_misread :
    PgUri.split (Settings.resolvedDsn { postgresHost := "db.internal", postgresPassword := "a b" }) =
      some ⟨"engram", "a+b", "db.internal", toString (5432 : Int), "engram"⟩ ∧
    PgUri.split (Settings.resolvedDsn { postgresHost := "db.internal", postgresPassword := "a b" }) ≠
      some ⟨"engram", "a b", "db.internal", toString (5432 : Int), "engram"⟩ := by
  have hread := split_resolvedDsn { postgresHost := "db.internal", postgresPassword := "a b" } (by decide) rfl rfl
  refine ⟨hread, fun h => ?_⟩
  have hsame : "a+b" = "a b" := congrArg PgUri.password (Option.some.inj (hread.symm.trans h))
  exact absurd hsame (by decide)

end Engram
