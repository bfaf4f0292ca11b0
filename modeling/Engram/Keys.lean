import Engram.Forget
/-!
# Conversation keys

The checkpoint key of a conversation is a digest of the user and the thread in
JSON. JSON keeps any two pairs apart, so only SHA-256 could merge them.
-/

namespace Engram

open Text

variable [Host] {u t u' t' : String}

/-! ## Keys -/

/-- Equal keys have equal digests. -/
theorem checkpointKey_digest (h : checkpointKey u t = checkpointKey u' t') :
    Host.sha256 (dumpsPair u t) = Host.sha256 (dumpsPair u' t') := by
  have hl := congrArg String.toList h
  simp only [checkpointKey, String.toList_append] at hl
  exact String.toList_injective (List.append_cancel_left hl)

/-- Different conversations have different checkpoint keys, as far as SHA-256 goes. -/
theorem checkpointKey_inj (hsha : Function.Injective Host.sha256) (h : checkpointKey u t = checkpointKey u' t') :
    u = u' ∧ t = t' := dumpsPair_inj (hsha (checkpointKey_digest h))

/-! ## The check of the index -/

/-- The thread index of `u` has an entry for `t` with another key. -/
def Backend.Legacy (w : World) (u t : String) : Prop :=
  ∃ e, (w.store (.threads u)).get t = some e ∧ e.checkpointId ≠ some (checkpointKey u t)

section Check
variable (S : Services) (w : World)

theorem exec_checkpointThreadId_ok (h : ¬ w.Legacy u t) :
    exec S (checkpointThreadId u t) w = (.ok (checkpointKey u t), w) := by
  unfold Backend.Legacy at h
  rw [checkpointThreadId, exec_storeGet, if_neg h, exec_pure]

theorem exec_checkpointThreadId_error (h : w.Legacy u t) :
    exec S (checkpointThreadId u t) w = (.error .legacyThread, w) := by
  unfold Backend.Legacy at h
  rw [checkpointThreadId, exec_storeGet, if_pos h, exec_raise]

/-- No key but its own is ever given to a conversation. -/
theorem exec_checkpointThreadId_key {key : String} (h : (exec S (checkpointThreadId u t) w).1 = .ok key) :
    key = checkpointKey u t := by
  by_cases hl : w.Legacy u t
  · rw [exec_checkpointThreadId_error S w hl] at h
    cases h
  · rw [exec_checkpointThreadId_ok S w hl] at h
    exact (Except.ok.inj h).symm

end Check

/-- The text behind a key is ASCII and determines the conversation. So if SHA-256 does not collide on
their texts, two conversations are never given the same key, whatever the backends hold. -/
theorem conversations_separate (u t u' t' : String) :
    (∀ c ∈ (dumpsPair u t).toList, c.toNat < 128) ∧
    (dumpsPair u t = dumpsPair u' t' → u = u' ∧ t = t') ∧
    ((Host.sha256 (dumpsPair u t) = Host.sha256 (dumpsPair u' t') → dumpsPair u t = dumpsPair u' t') →
      ∀ (S S' : Services) (w w' : World) (key : String), (exec S (checkpointThreadId u t) w).1 = .ok key →
        (exec S' (checkpointThreadId u' t') w').1 = .ok key → u = u' ∧ t = t') := by
  refine ⟨dumpsPair_ascii u t, dumpsPair_inj, fun hsha S S' w w' key hkey hkey' => ?_⟩
  have hown := exec_checkpointThreadId_key S w hkey
  have hother := exec_checkpointThreadId_key S' w' hkey'
  exact dumpsPair_inj (hsha (checkpointKey_digest (hown.symm.trans hother)))

end Engram
