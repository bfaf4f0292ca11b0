import Engram.Lib.Text
/-!
# Percent encoding

`quote_plus` of `urllib.parse`, and the plain decoding of `%XX`. They are not
inverse: a space is written as a plus sign, and a plus sign stands for itself.
-/

namespace Url

/-! ## Encoding -/

/-- Letters, digits and `_.-~`. -/
def isUnreserved (c : Char) : Bool := c.isAlphanum || "_.-~".toList.contains c

def upperHex (n : Nat) : Char := Char.ofNat (if n < 10 then 48 + n else 55 + n)

/-- `'%{:02X}'.format(b)`. -/
def escapeByte (b : UInt8) : List Char := ['%', upperHex (b.toNat / 16), upperHex (b.toNat % 16)]

/-- `quote(c, safe="")` on one character. -/
def quoteChar (c : Char) : List Char :=
  if isUnreserved c then [c] else (String.utf8EncodeChar c).flatMap escapeByte

/-- `quote_plus(s)`. -/
def quotePlus (s : String) : String :=
  String.ofList (s.toList.flatMap fun c => if c = ' ' then ['+'] else quoteChar c)

theorem quotePlus_empty : quotePlus "" = "" := rfl

/-! ## Decoding -/

def hexValue (c : Char) : Option Nat :=
  if 48 ≤ c.toNat ∧ c.toNat ≤ 57 then some (c.toNat - 48)
  else if 65 ≤ c.toNat ∧ c.toNat ≤ 70 then some (c.toNat - 55)
  else if 97 ≤ c.toNat ∧ c.toNat ≤ 102 then some (c.toNat - 87)
  else none

/-- Bytes of UTF-8, `%XX` being one byte. A `%` without two digits is an error. -/
def decodeBytes : List Char → Option (List UInt8)
  | [] => some []
  | c :: rest =>
    if c = '%' then
      match rest with
      | a :: b :: rest => do
        let high ← hexValue a
        let low ← hexValue b
        let bytes ← decodeBytes rest
        return UInt8.ofNat (high * 16 + low) :: bytes
      | _ => none
    else (decodeBytes rest).map (String.utf8EncodeChar c ++ ·)

/-- Only `%XX` is decoded; the bytes must be UTF-8. -/
def decode (s : List Char) : Option String := do
  let bytes ← decodeBytes s
  let chars ← bytes.toByteArray.utf8Decode?
  return String.ofList chars.toList

/-! ## What comes back -/

theorem hexValue_upperHex : ∀ n < 16, hexValue (upperHex n) = some n := by decide

theorem isUnreserved_upperHex : ∀ n < 16, isUnreserved (upperHex n) := by decide

theorem isUnreserved_ne {c d : Char} (hc : isUnreserved c) (hd : isUnreserved d = false) : c ≠ d := by
  rintro rfl
  rw [hc] at hd
  cases hd

theorem decodeBytes_escapeByte (b : UInt8) (rest : List Char) :
    decodeBytes (escapeByte b ++ rest) = (decodeBytes rest).map (b :: ·) := by
  have hb := b.toNat_lt
  have hbyte : UInt8.ofNat (b.toNat / 16 * 16 + b.toNat % 16) = b := by
    rw [Nat.div_add_mod']
    exact UInt8.ofNat_toNat
  simp only [escapeByte, List.cons_append, List.nil_append]
  rw [decodeBytes, if_pos rfl]
  simp only [hexValue_upperHex _ (show b.toNat / 16 < 16 by omega),
    hexValue_upperHex _ (show b.toNat % 16 < 16 by omega)]
  cases decodeBytes rest with
  | none => rfl
  | some bytes =>
    show some (UInt8.ofNat (b.toNat / 16 * 16 + b.toNat % 16) :: bytes) = some (b :: bytes)
    rw [hbyte]

theorem decodeBytes_plain {c : Char} (hc : c ≠ '%') (rest : List Char) :
    decodeBytes (c :: rest) = (decodeBytes rest).map (String.utf8EncodeChar c ++ ·) := by
  rw [decodeBytes.eq_def]
  exact if_neg hc

theorem decodeBytes_escapeBytes (bs : List UInt8) (rest : List Char) :
    decodeBytes (bs.flatMap escapeByte ++ rest) = (decodeBytes rest).map (bs ++ ·) := by
  induction bs with
  | nil => cases h : decodeBytes rest <;> simp [h]
  | cons b bs ih =>
    rw [List.flatMap_cons, List.append_assoc, decodeBytes_escapeByte, ih, Option.map_map]
    rfl

theorem decodeBytes_quoteChar (c : Char) (rest : List Char) :
    decodeBytes (quoteChar c ++ rest) = (decodeBytes rest).map (String.utf8EncodeChar c ++ ·) := by
  unfold quoteChar
  split
  · next hc => exact decodeBytes_plain (isUnreserved_ne hc (by decide)) rest
  · exact decodeBytes_escapeBytes _ rest

/-- What a space becomes. -/
def plusForSpace (c : Char) : Char := if c = ' ' then '+' else c

theorem decodeBytes_quotePlus (s : List Char) :
    decodeBytes (s.flatMap fun c => if c = ' ' then ['+'] else quoteChar c) =
      some ((s.map plusForSpace).flatMap String.utf8EncodeChar) := by
  induction s with
  | nil => rfl
  | cons c s ih =>
    rw [List.flatMap_cons, List.map_cons, List.flatMap_cons, plusForSpace]
    split
    · rw [List.singleton_append, decodeBytes_plain (by decide), ih]
      rfl
    · rw [decodeBytes_quoteChar, ih]
      rfl

/-- Decoding gives the text back, but for its spaces. -/
theorem decode_quotePlus (s : String) :
    decode (quotePlus s).toList = some (String.ofList (s.toList.map plusForSpace)) := by
  have hbytes : ((s.toList.map plusForSpace).flatMap String.utf8EncodeChar).toByteArray =
      (s.toList.map plusForSpace).utf8Encode := rfl
  rw [decode, quotePlus, String.toList_ofList, decodeBytes_quotePlus]
  simp [hbytes]

theorem plusForSpace_eq_self_iff {s : String} : String.ofList (s.toList.map plusForSpace) = s ↔ ' ' ∉ s.toList := by
  rw [← String.toList_inj, String.toList_ofList]
  constructor
  · intro h hspace
    have hmem : ' ' ∈ s.toList.map plusForSpace := h.symm ▸ hspace
    obtain ⟨c, -, hc⟩ := List.mem_map.1 hmem
    unfold plusForSpace at hc
    split at hc
    · cases hc
    · contradiction
  · intro h
    refine (List.map_congr_left fun c hc => if_neg ?_).trans (List.map_id _)
    rintro rfl
    exact h hc

theorem quotePlus_chars {s : String} : ∀ c ∈ (quotePlus s).toList, isUnreserved c ∨ c = '%' ∨ c = '+' := by
  intro c hc
  rw [quotePlus, String.toList_ofList] at hc
  obtain ⟨d, -, hc⟩ := List.mem_flatMap.1 hc
  split at hc
  · exact .inr (.inr (List.mem_singleton.1 hc))
  · unfold quoteChar at hc
    split at hc
    · next hd => exact .inl (List.mem_singleton.1 hc ▸ hd)
    · obtain ⟨b, -, hc⟩ := List.mem_flatMap.1 hc
      have hb := b.toNat_lt
      simp only [escapeByte, List.mem_cons, List.not_mem_nil, or_false] at hc
      rcases hc with rfl | rfl | rfl
      · exact .inr (.inl rfl)
      · exact .inl (isUnreserved_upperHex _ (by omega))
      · exact .inl (isUnreserved_upperHex _ (by omega))

/-- Text without a `%` stands for itself. -/
theorem decode_plain {s : List Char} (h : '%' ∉ s) : decode s = some (String.ofList s) := by
  have hbytes : decodeBytes s = some (s.flatMap String.utf8EncodeChar) := by
    induction s with
    | nil => rfl
    | cons c s ih =>
      obtain ⟨hc, hs⟩ := not_or.1 (List.mem_cons.not.1 h)
      rw [decodeBytes_plain (Ne.symm hc), ih hs]
      rfl
  have hutf : (s.flatMap String.utf8EncodeChar).toByteArray = s.utf8Encode := rfl
  rw [decode, hbytes]
  simp [hutf]

end Url
